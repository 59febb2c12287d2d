/-
# The RLP codec of the raw transaction decoder

The functions of `eth_tx.rs` that take recursive length prefixes apart and put them together.  They
compute with lengths that are read from the input: an addition may overflow, and then a build with
overflow checks panics and one without them goes on with a small number.

As long as no declared length leads out of the words, both builds read what the headers declare.
-/
import ZenoChain.Base.Outcome
import ZenoChain.Base.Rlp
import ZenoChain.Base.Word
import ZenoChain.Chain.Rocks
import ZenoChain.Execution.Evm

namespace ZenoChain.EthTx

open Codec Word

/-! ## Numbers -/

/-- The number with the given bytes, most significant first, in a word of `w` bits. -/
def beToWord (w : ℕ) (bytes : Bytes) : ℕ :=
  bytes.foldl (fun value b => (value * 256 + b.toNat) % 2 ^ w) 0

def beToUsize (bytes : Bytes) : ℕ := beToWord 64 bytes

def rlpToU64 (bytes : Bytes) : ℕ := beToWord 64 bytes

def rlpToU128 (bytes : Bytes) : ℕ := beToWord 128 bytes

/-- A recipient; what is not an address stands for the creation of a contract. -/
def rlpToAddress (bytes : Bytes) : Option EvmAddress :=
  if bytes.length = 20 then some (BitVec.ofNat 160 (Digits.ofBe bytes)) else none

/-- The bytes of a length: the low byte is taken off as long as something is left, and the bytes
are reversed. -/
def usizeToBe (value : ℕ) : Bytes := if value = 0 then [0] else Digits.toBe value

/-- The eight bytes of a number without the leading zeros. -/
def rlpFromU64 (value : ℕ) : Bytes :=
  if value = 0 then [] else (beBytes 8 value).dropWhile fun b => b = 0

lemma beToWord_eq (w : ℕ) (bytes : Bytes) : beToWord w bytes = Digits.ofBe bytes % 2 ^ w := by
  have hfold : ∀ (l : Bytes) (v : ℕ), (l.foldl (fun value b => (value * 256 + b.toNat) % 2 ^ w)
      (v % 2 ^ w)) = (v * 256 ^ l.length + Digits.ofBe l) % 2 ^ w := by
    intro l
    induction l with
    | nil =>
      intro v
      rw [List.foldl_nil, List.length_nil, Nat.pow_zero, Nat.mul_one, Digits.ofBe_nil, Nat.add_zero]
    | cons b l ih =>
      intro v
      have hstep : (v % 2 ^ w * 256 + b.toNat) % 2 ^ w = (v * 256 + b.toNat) % 2 ^ w := by
        rw [Nat.add_mod, Nat.mod_mul_mod, ← Nat.add_mod]
      rw [List.foldl_cons, hstep, ih, List.length_cons, Digits.ofBe_cons]
      congr 1
      ring
  have h := hfold bytes 0
  rwa [Nat.zero_mod, Nat.zero_mul, Nat.zero_add] at h

lemma beToUsize_eq {bytes : Bytes} (h : bytes.length ≤ 8) : beToUsize bytes = Digits.ofBe bytes := by
  have hpow : 256 ^ bytes.length ≤ 256 ^ 8 := Nat.pow_le_pow_right (by decide) h
  rw [beToUsize, beToWord_eq]
  exact Nat.mod_eq_of_lt ((Digits.ofBe_lt bytes).trans_le hpow)

lemma rlpFromU64_eq {value : ℕ} (h : value < 2 ^ 64) : rlpFromU64 value = Digits.toBe value := by
  have hdrop : ∀ l : Bytes, Digits.ofBe (l.dropWhile fun b => b = 0) = Digits.ofBe l := by
    intro l
    induction l with
    | nil => rfl
    | cons b l ih =>
      rw [List.dropWhile_cons]
      split
      · rename_i hb
        rw [ih, of_decide_eq_true hb, Digits.ofBe_cons, UInt8.toNat_zero, Nat.zero_mul, Nat.zero_add]
      · rfl
  have hhead : ((beBytes 8 value).dropWhile fun b => b = 0).head? ≠ some 0 := by
    intro hzero
    have := List.head?_dropWhile_not (fun b : UInt8 => decide (b = 0)) (beBytes 8 value)
    rw [hzero] at this
    simp at this
  rw [rlpFromU64]
  split
  · rename_i hzero
    rw [hzero, Digits.toBe_zero]
  · rw [← Digits.toBe_ofBe hhead, hdrop, ofBe_beBytes h]

/-! ## Encoding -/

def rlpEncodeBytes (bytes : Bytes) : Bytes :=
  if bytes.length = 1 ∧ ∀ x ∈ bytes, x.toNat < 0x80 then bytes
  else if bytes.length ≤ 55 then UInt8.ofNat (0x80 + bytes.length) :: bytes
  else
    let lenBytes := usizeToBe bytes.length
    UInt8.ofNat (0xb7 + lenBytes.length) :: (lenBytes ++ bytes)

def rlpEncodeListHeader (payloadLen : ℕ) : Bytes :=
  if payloadLen ≤ 55 then [UInt8.ofNat (0xc0 + payloadLen)]
  else
    let lenBytes := usizeToBe payloadLen
    UInt8.ofNat (0xf7 + lenBytes.length) :: lenBytes

/-- Encodes a list of byte strings. -/
def rlpEncodeList (items : List Bytes) : Bytes :=
  let payload := items.flatMap rlpEncodeBytes
  rlpEncodeListHeader payload.length ++ payload

lemma usizeToBe_eq {value : ℕ} (h : 55 < value) : usizeToBe value = Digits.toBe value :=
  if_neg (by omega)

lemma rlpEncodeBytes_eq (bytes : Bytes) : rlpEncodeBytes bytes = Rlp.string bytes := by
  rw [rlpEncodeBytes, Rlp.string, Rlp.header]
  split
  · rfl
  · split
    · rfl
    · rw [usizeToBe_eq (by omega)]
      rfl

lemma rlpEncodeListHeader_eq (payloadLen : ℕ) :
    rlpEncodeListHeader payloadLen = Rlp.header true payloadLen := by
  rw [rlpEncodeListHeader, Rlp.header]
  split
  · rfl
  · rw [usizeToBe_eq (by omega)]
    rfl

lemma rlpEncodeList_eq (items : List Bytes) :
    rlpEncodeList items = Rlp.list (items.map Rlp.string) := by
  have hpayload : items.flatMap rlpEncodeBytes = (items.map Rlp.string).flatten := by
    rw [← List.flatMap_def, funext rlpEncodeBytes_eq]
  rw [rlpEncodeList, Rlp.list, hpayload, rlpEncodeListHeader_eq]

/-! ## Decoding -/

/-- What a build does with an addition that overflows: it checks for it, or it wraps around. -/
inductive Build
  | checked
  | wrapping

/-- Adds two lengths. -/
def Build.add (build : Build) (a b : ℕ) : Outcome String ℕ :=
  if a + b < 2 ^ 64 then .ok (a + b)
  else match build with
    | checked => .panic
    | wrapping => .ok (wrappingAdd 64 a b)

/-- The bytes of a range; one outside the string, or one that ends before it starts, panics. -/
def byteRange (data : Bytes) (start stop : ℕ) : Outcome String Bytes :=
  if start ≤ stop ∧ stop ≤ data.length then .ok ((data.drop start).take (stop - start)) else .panic

/-- Returns the payload of a list. -/
def rlpListPayload (build : Build) (data : Bytes) : Outcome String Bytes :=
  match data with
  | [] => .panic
  | first :: _ =>
    let lead := first.toNat
    if 0xf8 ≤ lead then
      let lenLen := lead - 0xf7
      if data.length < 1 + lenLen then .error "rlp: truncated long list length"
      else do
        let lenBytes ← byteRange data 1 (1 + lenLen)
        let start := 1 + lenLen
        let stop ← build.add start (beToUsize lenBytes)
        if data.length < stop then .error "rlp: truncated long list payload"
        else byteRange data start stop
    else if 0xc0 ≤ lead then
      let len := lead - 0xc0
      if data.length < 1 + len then .error "rlp: truncated short list payload"
      else byteRange data 1 (1 + len)
    else .error ("rlp: expected list, got prefix 0x" ++ hexEncode [first])

/-- Decodes the next item, with the number of bytes that it takes up.  A list is returned as it
stands, with its header. -/
def rlpNextItem (build : Build) (data : Bytes) : Outcome String (Bytes × ℕ) :=
  match data with
  | [] => .error "rlp: unexpected end"
  | first :: _ =>
    let lead := first.toNat
    if lead < 0x80 then .ok ([first], 1)
    else if lead ≤ 0xb7 then
      let len := lead - 0x80
      if data.length < 1 + len then .error "rlp: truncated short string"
      else do
        let item ← byteRange data 1 (1 + len)
        return (item, 1 + len)
    else if lead ≤ 0xbf then
      let lenLen := lead - 0xb7
      if data.length < 1 + lenLen then .error "rlp: truncated long string length"
      else do
        let lenBytes ← byteRange data 1 (1 + lenLen)
        let start := 1 + lenLen
        let stop ← build.add start (beToUsize lenBytes)
        if data.length < stop then .error "rlp: truncated long string payload"
        else do
          let item ← byteRange data start stop
          return (item, stop)
    else if lead ≤ 0xf7 then
      let len := lead - 0xc0
      if data.length < 1 + len then .error "rlp: truncated short list"
      else do
        let item ← byteRange data 0 (1 + len)
        return (item, 1 + len)
    else
      let lenLen := lead - 0xf7
      if data.length < 1 + lenLen then .error "rlp: truncated long list length"
      else do
        let lenBytes ← byteRange data 1 (1 + lenLen)
        let start := 1 + lenLen
        let stop ← build.add start (beToUsize lenBytes)
        if data.length < stop then .error "rlp: truncated long list"
        else do
          let item ← byteRange data 0 stop
          return (item, stop)

/-- The loop over the items of a payload.  Every item that takes up something shortens the payload,
so the fuel runs out only where an item takes up nothing: there the loop goes on until the memory
for its items is exhausted. -/
def rlpItems (build : Build) : ℕ → Bytes → Outcome String (List Bytes)
  | _, [] => .ok []
  | 0, _ :: _ => .panic
  | fuel + 1, first :: rest => do
    let (item, consumed) ← rlpNextItem build (first :: rest)
    let items ← rlpItems build fuel ((first :: rest).drop consumed)
    return item :: items

/-- Decodes a top-level list into its items; what follows the list is ignored. -/
def rlpDecodeList (build : Build) (data : Bytes) : Outcome String (List Bytes) :=
  if data = [] then .error "empty RLP"
  else do
    let payload ← rlpListPayload build data
    rlpItems build payload.length payload

/-! ## What the headers declare -/

section

variable {data : Bytes} {h : Rlp.Head}

/-- An item as the decoder returns it: a string without its header, a list with it. -/
def decodedItem (h : Rlp.Head) (data : Bytes) : Bytes :=
  if h.isList then data.take h.total else h.payload data

lemma Build.add_of_lt {a b : ℕ} (build : Build) (h : a + b < 2 ^ 64) : build.add a b = .ok (a + b) :=
  if_pos h

lemma byteRange_of_le {start stop : ℕ} (hstart : start ≤ stop) (hstop : stop ≤ data.length) :
    byteRange data start stop = .ok ((data.drop start).take (stop - start)) :=
  if_pos ⟨hstart, hstop⟩

/-- The bytes of a length. -/
lemma byteRange_length {first : UInt8} {rest : Bytes} {k : ℕ} (h : k ≤ rest.length) :
    byteRange (first :: rest) 1 (1 + k) = .ok (rest.take k) := by
  rw [byteRange_of_le (by omega) (by rw [List.length_cons]; omega), Nat.add_sub_cancel_left]
  rfl

/-- Reads the item that a header declares, or fails with an error. -/
def takeItem (build : Build) (data : Bytes) (e : String) (h : Rlp.Head) :
    Outcome String (Bytes × ℕ) := do
  let stop ← build.add h.start h.len
  if data.length < stop then .error e
  else do
    let item ← byteRange data (if h.isList then 0 else h.start) stop
    return (item, stop)

/-- A header with a short length, and its item. -/
lemma takeItem_short {build : Build} {e : String} {len : ℕ} (isList : Bool) (hlen : len < 2 ^ 8) :
    takeItem build data e ⟨isList, 1, len⟩ =
      if data.length < 1 + len then .error e
      else do
        let item ← byteRange data (if isList then 0 else 1) (1 + len)
        return (item, 1 + len) := by
  rw [takeItem, Build.add_of_lt _ (by dsimp only; omega)]
  rfl

/-- A header with a long length, and its item. -/
lemma takeItem_long {build : Build} {e e' : String} {first : UInt8} {rest : Bytes} {k : ℕ}
    (isList : Bool) (hk : k ≤ 8) :
    (if (first :: rest).length < 1 + k then .error e'
      else do
        let lenBytes ← byteRange (first :: rest) 1 (1 + k)
        let stop ← build.add (1 + k) (beToUsize lenBytes)
        if (first :: rest).length < stop then .error e
        else do
          let item ← byteRange (first :: rest) (if isList then 0 else 1 + k) stop
          return (item, stop)) =
      match Rlp.longHead isList k rest with
      | none => .error e'
      | some h => takeItem build (first :: rest) e h := by
  by_cases hle : k ≤ rest.length
  · have hlength : (rest.take k).length ≤ 8 := by
      rw [List.length_take]
      omega
    rw [if_neg (by rw [List.length_cons]; omega), byteRange_length hle, Outcome.ok_bind,
      beToUsize_eq hlength, Rlp.longHead, if_pos hle]
    rfl
  · rw [if_pos (by rw [List.length_cons]; omega), Rlp.longHead, if_neg hle]

/-- **The next item is the one that its header declares.**  The texts of the errors do not depend
on the build. -/
lemma rlpNextItem_eq (data : Bytes) : ∃ e e', ∀ build, rlpNextItem build data =
    match Rlp.head data with
    | none => .error e'
    | some h => takeItem build data e h := by
  cases data with
  | nil => exact ⟨"", _, fun _ => rfl⟩
  | cons first rest =>
    have hfirst := first.toNat_lt
    simp only [rlpNextItem, Rlp.head]
    by_cases h₁ : first.toNat < 0x80
    · refine ⟨"", "", fun build => ?_⟩
      rw [if_pos h₁, if_pos h₁]
      rfl
    · by_cases h₂ : first.toNat < 0xb8
      · refine ⟨"rlp: truncated short string", "", fun build => ?_⟩
        rw [if_neg h₁, if_pos (by omega), if_neg h₁, if_pos h₂]
        generalize hlen : first.toNat - 0x80 = len
        exact (takeItem_short false (by omega)).symm
      · by_cases h₃ : first.toNat < 0xc0
        · refine ⟨"rlp: truncated long string payload", "rlp: truncated long string length",
            fun build => ?_⟩
          rw [if_neg h₁, if_neg (by omega), if_pos (by omega), if_neg h₁, if_neg h₂, if_pos h₃]
          generalize hk : first.toNat - 0xb7 = k
          exact takeItem_long false (by omega)
        · by_cases h₄ : first.toNat < 0xf8
          · refine ⟨"rlp: truncated short list", "", fun build => ?_⟩
            rw [if_neg h₁, if_neg (by omega), if_neg (by omega), if_pos (by omega), if_neg h₁,
              if_neg h₂, if_neg h₃, if_pos h₄]
            generalize hlen : first.toNat - 0xc0 = len
            exact (takeItem_short true (by omega)).symm
          · refine ⟨"rlp: truncated long list", "rlp: truncated long list length", fun build => ?_⟩
            rw [if_neg h₁, if_neg (by omega), if_neg (by omega), if_neg (by omega), if_neg h₁,
              if_neg h₂, if_neg h₃, if_neg h₄]
            generalize hk : first.toNat - 0xf7 = k
            exact takeItem_long true (by omega)

/-- Reads the payload of the list that a header declares, or fails with an error. -/
def takePayload (build : Build) (data : Bytes) (e : String) (h : Rlp.Head) : Outcome String Bytes := do
  let stop ← build.add h.start h.len
  if data.length < stop then .error e else byteRange data h.start stop

/-- **The payload is the one that the header declares**, if it is that of a list. -/
lemma rlpListPayload_eq (hne : data ≠ []) : ∃ e e', ∀ build, rlpListPayload build data =
    match Rlp.head data with
    | none => .error e'
    | some h => if h.isList then takePayload build data e h else .error e' := by
  cases data with
  | nil => exact absurd rfl hne
  | cons first rest =>
    have hfirst := first.toNat_lt
    by_cases hlist : first.toNat < 0xc0
    · have hstring : ∀ h, Rlp.head (first :: rest) = some h → h.isList = false := by
        intro h hh
        rw [Rlp.head] at hh
        split at hh
        · cases hh
          rfl
        · split at hh
          · cases hh
            rfl
          · rw [Rlp.longHead] at hh
            split at hh
            · cases hh
              rfl
            · cases hh
      refine ⟨"", "rlp: expected list, got prefix 0x" ++ hexEncode [first], fun build => ?_⟩
      rw [rlpListPayload, if_neg (by omega), if_neg (by omega)]
      rcases hh : Rlp.head (first :: rest) with _ | h
      · rfl
      · dsimp only
        rw [hstring h hh]
        rfl
    · by_cases hlong : first.toNat < 0xf8
      · have hhead : Rlp.head (first :: rest) = some ⟨true, 1, first.toNat - 0xc0⟩ := by
          rw [Rlp.head, if_neg (by omega), if_neg (by omega), if_neg hlist, if_pos hlong]
        refine ⟨"rlp: truncated short list payload", "", fun build => ?_⟩
        rw [hhead, rlpListPayload, if_neg (by omega), if_pos (by omega)]
        generalize hlen : first.toNat - 0xc0 = len
        dsimp only
        rw [if_pos rfl, takePayload, Build.add_of_lt _ (by dsimp only; omega)]
        rfl
      · have hhead : Rlp.head (first :: rest) = Rlp.longHead true (first.toNat - 0xf7) rest := by
          rw [Rlp.head, if_neg (by omega), if_neg (by omega), if_neg hlist, if_neg hlong]
        refine ⟨"rlp: truncated long list payload", "rlp: truncated long list length",
          fun build => ?_⟩
        rw [hhead, rlpListPayload, if_pos (by omega)]
        generalize hk : first.toNat - 0xf7 = k
        by_cases hle : k ≤ rest.length
        · have hlength : (rest.take k).length ≤ 8 := by
            rw [List.length_take]
            omega
          dsimp only
          rw [if_neg (by rw [List.length_cons]; omega), byteRange_length hle, Outcome.ok_bind,
            beToUsize_eq hlength, Rlp.longHead, if_pos hle]
          rfl
        · dsimp only
          rw [if_pos (by rw [List.length_cons]; omega), Rlp.longHead, if_neg hle]

/-! ### Declared lengths within the words -/

lemma takeItem_ok {build : Build} {e : String} (hfits : h.total < 2 ^ 64)
    (hle : h.total ≤ data.length) :
    takeItem build data e h = .ok (decodedItem h data, h.total) := by
  have hnot : ¬ data.length < h.start + h.len := Nat.not_lt.mpr hle
  rw [takeItem, Build.add_of_lt _ hfits, Outcome.ok_bind, if_neg hnot, decodedItem]
  split
  · have hrange := byteRange_of_le (Nat.zero_le _) hle
    rw [Rlp.Head.total] at hrange
    rw [hrange]
    rfl
  · rw [byteRange_of_le (Nat.le_add_right _ _) hle, Nat.add_sub_cancel_left]
    rfl

lemma takeItem_truncated {build : Build} {e : String} (hfits : h.total < 2 ^ 64)
    (hlt : data.length < h.total) : takeItem build data e h = .error e := by
  rw [takeItem, Build.add_of_lt _ hfits, Outcome.ok_bind]
  exact if_pos hlt

lemma takeItem_overflow {e : String} (hfits : ¬ h.total < 2 ^ 64) :
    takeItem .checked data e h = .panic := by
  have hadd : Build.checked.add h.start h.len = .panic := if_neg hfits
  rw [takeItem, hadd]
  rfl

lemma takePayload_ok {build : Build} {e : String} (hfits : h.total < 2 ^ 64)
    (hle : h.total ≤ data.length) : takePayload build data e h = .ok (h.payload data) := by
  have hnot : ¬ data.length < h.start + h.len := Nat.not_lt.mpr hle
  rw [takePayload, Build.add_of_lt _ hfits, Outcome.ok_bind, if_neg hnot,
    byteRange_of_le (Nat.le_add_right _ _) hle, Nat.add_sub_cancel_left]
  rfl

lemma takePayload_truncated {build : Build} {e : String} (hfits : h.total < 2 ^ 64)
    (hlt : data.length < h.total) : takePayload build data e h = .error e := by
  rw [takePayload, Build.add_of_lt _ hfits, Outcome.ok_bind]
  exact if_pos hlt

/-- After an overflow the payload would end before it starts, so both builds panic. -/
lemma takePayload_overflow {build : Build} {e : String} (hhead : Rlp.head data = some h)
    (hfits : ¬ h.total < 2 ^ 64) : takePayload build data e h = .panic := by
  obtain ⟨hstart, hlen, -, hcomplete⟩ := Rlp.head_bounds hhead
  have hlarge : ¬ h.start + h.len < 2 ^ 64 := hfits
  cases build with
  | checked =>
    have hadd : Build.checked.add h.start h.len = .panic := if_neg hfits
    rw [takePayload, hadd]
    rfl
  | wrapping =>
    have hadd : Build.wrapping.add h.start h.len = .ok (wrappingAdd 64 h.start h.len) := if_neg hfits
    have hstop : wrappingAdd 64 h.start h.len < h.start := by
      have hsum : h.start + h.len = h.start + h.len - 2 ^ 64 + 2 ^ 64 := by omega
      rw [wrappingAdd, hsum, Nat.add_mod_right, Nat.mod_eq_of_lt (by omega)]
      omega
    rw [takePayload, hadd, Outcome.ok_bind, if_neg (by omega), byteRange, if_neg (by omega)]

/-- Exactly the payloads of complete lists are read, and these by both builds. -/
lemma rlpListPayload_eq_ok_iff {build : Build} {payload : Bytes} :
    rlpListPayload build data = .ok payload ↔ ∃ h, Rlp.head data = some h ∧ h.isList = true ∧
      h.total < 2 ^ 64 ∧ h.total ≤ data.length ∧ h.payload data = payload := by
  rcases eq_or_ne data [] with rfl | hne
  · constructor
    · intro h
      cases h
    · rintro ⟨h, hh, -⟩
      cases hh
  · obtain ⟨e, e', heq⟩ := rlpListPayload_eq hne
    rw [heq build]
    rcases hh : Rlp.head data with _ | h
    · simp
    · by_cases hlist : h.isList = true
      · dsimp only
        rw [if_pos hlist]
        by_cases hfits : h.total < 2 ^ 64
        · by_cases hle : h.total ≤ data.length
          · rw [takePayload_ok hfits hle]
            constructor
            · exact fun hok => ⟨h, rfl, hlist, hfits, hle, Outcome.ok.inj hok⟩
            · rintro ⟨h', hh', -, -, -, rfl⟩
              cases hh'
              rfl
          · rw [takePayload_truncated hfits (by omega)]
            refine iff_of_false nofun ?_
            rintro ⟨h', hh', -, -, hle', -⟩
            cases hh'
            exact hle hle'
        · rw [takePayload_overflow hh hfits]
          refine iff_of_false nofun ?_
          rintro ⟨h', hh', -, hfits', -⟩
          cases hh'
          exact hfits hfits'
      · dsimp only
        rw [if_neg hlist]
        refine iff_of_false nofun ?_
        rintro ⟨h', hh', hlist', -⟩
        cases hh'
        exact hlist hlist'

/-- The positions at which items are read, one after the other. -/
inductive Reaches : Bytes → Bytes → Prop
  | here (data : Bytes) : Reaches data data
  | skip {data rest : Bytes} {h : Rlp.Head} : Rlp.head data = some h → h.total ≤ data.length →
      Reaches (data.drop h.total) rest → Reaches data rest

/-- At no position a header declares a length that leads out of the words. -/
def Modest (payload : Bytes) : Prop :=
  ∀ data, Reaches payload data → ∀ h, Rlp.head data = some h → h.total < 2 ^ 64

lemma modest_iff : Modest data ↔ ∀ h, Rlp.head data = some h →
    h.total < 2 ^ 64 ∧ (h.total ≤ data.length → Modest (data.drop h.total)) := by
  constructor
  · intro hmodest h hh
    exact ⟨hmodest data (.here data) h hh, fun hle rest hrest => hmodest rest (.skip hh hle hrest)⟩
  · intro hall rest hrest h hh
    cases hrest with
    | here => exact (hall h hh).1
    | skip hh' hle hrest => exact (hall _ hh').2 hle rest hrest h hh

/-- **The loop over the items.**  A build with overflow checks comes through exactly if no length
leads out of the words, and then a build without them does the same. -/
lemma rlpItems_returns_iff {fuel : ℕ} (hfuel : data.length ≤ fuel) :
    ((rlpItems .checked fuel data).Returns ↔ Modest data) ∧
      (Modest data → ∀ build, rlpItems build fuel data = rlpItems .checked fuel data) := by
  induction fuel generalizing data with
  | zero =>
    obtain rfl := List.eq_nil_of_length_eq_zero (Nat.le_zero.mp hfuel)
    have hmodest : Modest [] := modest_iff.mpr fun h hh => by cases hh
    exact ⟨iff_of_true (Outcome.returns_ok _) hmodest, fun _ _ => rfl⟩
  | succ fuel ih =>
    cases data with
    | nil =>
      have hmodest : Modest [] := modest_iff.mpr fun h hh => by cases hh
      exact ⟨iff_of_true (Outcome.returns_ok _) hmodest, fun _ _ => rfl⟩
    | cons first rest =>
      obtain ⟨e, e', heq⟩ := rlpNextItem_eq (first :: rest)
      simp only [rlpItems, heq]
      rcases hh : Rlp.head (first :: rest) with _ | h
      · have hmodest : Modest (first :: rest) := modest_iff.mpr fun h hh' => by
          rw [hh] at hh'
          cases hh'
        exact ⟨iff_of_true (Outcome.returns_error _) hmodest, fun _ _ => rfl⟩
      · have hiff : Modest (first :: rest) ↔ h.total < 2 ^ 64 ∧
            (h.total ≤ (first :: rest).length → Modest ((first :: rest).drop h.total)) := by
          rw [modest_iff, hh]
          exact ⟨fun hall => hall h rfl, fun hboth h' hh' => by cases hh'; exact hboth⟩
        rw [hiff]
        dsimp only
        by_cases hfits : h.total < 2 ^ 64
        · by_cases hle : h.total ≤ (first :: rest).length
          · -- The rest of the payload is shorter, as every item takes up something.
            have hpos := (Rlp.head_bounds hh).2.2.1
            have hshort : ((first :: rest).drop h.total).length ≤ fuel := by
              rw [List.length_drop]
              omega
            obtain ⟨hreturns, hsame⟩ := ih hshort
            simp only [takeItem_ok hfits hle, Outcome.ok_bind, Outcome.returns_bind_iff]
            refine ⟨⟨fun hr => ⟨hfits, fun _ => hreturns.mp hr.1⟩, fun hboth =>
              ⟨hreturns.mpr (hboth.2 hle), fun _ _ => Outcome.returns_ok _⟩⟩, fun hboth build => ?_⟩
            rw [hsame (hboth.2 hle) build]
          · simp only [takeItem_truncated hfits (Nat.lt_of_not_le hle), Outcome.error_bind]
            exact ⟨iff_of_true (Outcome.returns_error _) ⟨hfits, fun h' => absurd h' hle⟩,
              fun _ _ => trivial⟩
        · rw [takeItem_overflow hfits]
          exact ⟨iff_of_false Outcome.not_returns_panic fun hboth => hfits hboth.1,
            fun hboth => absurd hboth.1 hfits⟩

/-! ### Canonical encodings are decoded -/

/-- Whatever follows, the decoder reads the one as the other. -/
def Encodes (encoded item : Bytes) : Prop :=
  ∀ rest, ∃ h, Rlp.head (encoded ++ rest) = some h ∧ h.total = encoded.length ∧
    decodedItem h (encoded ++ rest) = item

/-- A string is returned without its header. -/
lemma encodes_string {b : Bytes} (hlen : b.length < 2 ^ 64) : Encodes (Rlp.string b) b := by
  intro rest
  obtain ⟨h, hh, hstring, htotal, hpayload⟩ := Rlp.head_string hlen rest
  refine ⟨h, hh, htotal, ?_⟩
  rw [decodedItem, hstring, if_neg Bool.false_ne_true, hpayload]

/-- A list is returned with its header. -/
lemma encodes_list {items : List Bytes} (hlen : items.flatten.length < 2 ^ 64) :
    Encodes (Rlp.list items) (Rlp.list items) := by
  intro rest
  obtain ⟨h, hh, hlist, htotal, -⟩ := Rlp.head_list hlen rest
  refine ⟨h, hh, htotal, ?_⟩
  rw [decodedItem, if_pos hlist, htotal, List.take_left]

lemma rlpItems_flatten {build : Build} {encoded items : List Bytes}
    (hencodes : List.Forall₂ Encodes encoded items) (hlen : encoded.flatten.length < 2 ^ 64)
    {fuel : ℕ} (hfuel : encoded.flatten.length ≤ fuel) :
    rlpItems build fuel encoded.flatten = .ok items := by
  induction hencodes generalizing fuel with
  | nil =>
    cases fuel <;> rfl
  | @cons x item encoded items hx _ ih =>
    obtain ⟨h, hh, htotal, hitem⟩ := hx encoded.flatten
    rw [List.flatten_cons] at hlen hfuel ⊢
    rw [List.length_append] at hlen hfuel
    have hpos := (Rlp.head_bounds hh).2.2.1
    obtain ⟨fuel, rfl⟩ : ∃ n, fuel = n + 1 := Nat.exists_eq_succ_of_ne_zero (by omega)
    obtain ⟨e, e', heq⟩ := rlpNextItem_eq (x ++ encoded.flatten)
    have hnext : rlpNextItem build (x ++ encoded.flatten) = .ok (item, x.length) := by
      rw [heq build, hh]
      dsimp only
      rw [takeItem_ok (by omega) (by rw [List.length_append]; omega), hitem, htotal]
    have hstep : rlpItems build (fuel + 1) (x ++ encoded.flatten) = (do
        let (item, consumed) ← rlpNextItem build (x ++ encoded.flatten)
        let items ← rlpItems build fuel ((x ++ encoded.flatten).drop consumed)
        return item :: items) := by
      cases hcons : x ++ encoded.flatten with
      | nil =>
        rw [hcons] at hh
        cases hh
      | cons => rfl
    rw [hstep, hnext, Outcome.ok_bind]
    dsimp only
    rw [List.drop_left, ih (by omega) (by omega)]
    rfl

/-- **A list of encoded items is decoded**, whatever follows it. -/
lemma rlpDecodeList_list {build : Build} {encoded items : List Bytes}
    (hencodes : List.Forall₂ Encodes encoded items)
    (hlen : (Rlp.list encoded).length < 2 ^ 64) (rest : Bytes) :
    rlpDecodeList build (Rlp.list encoded ++ rest) = .ok items := by
  have hflatten : encoded.flatten.length < 2 ^ 64 := by
    rw [Rlp.list, List.length_append] at hlen
    omega
  obtain ⟨h, hh, hlist, htotal, hpayload⟩ := Rlp.head_list hflatten rest
  have hne : Rlp.list encoded ++ rest ≠ [] := by
    intro hnil
    rw [hnil] at hh
    cases hh
  have hok : rlpListPayload build (Rlp.list encoded ++ rest) = .ok encoded.flatten :=
    rlpListPayload_eq_ok_iff.mpr
      ⟨h, hh, hlist, by omega, by rw [List.length_append]; omega, hpayload⟩
  rw [rlpDecodeList, if_neg hne, hok, Outcome.ok_bind]
  exact rlpItems_flatten hencodes hflatten le_rfl

/-- What follows a decoded list is ignored. -/
lemma rlpDecodeList_append {build : Build} {items : List Bytes}
    (hok : rlpDecodeList build data = .ok items) (rest : Bytes) :
    rlpDecodeList build (data ++ rest) = .ok items := by
  rw [rlpDecodeList] at hok ⊢
  split at hok
  · cases hok
  · rename_i hne
    obtain ⟨payload, hpayload, hitems⟩ := Outcome.bind_eq_ok_iff.mp hok
    obtain ⟨h, hh, hlist, hfits, hle, hpay⟩ := rlpListPayload_eq_ok_iff.mp hpayload
    have hpayload' : rlpListPayload build (data ++ rest) = .ok payload :=
      rlpListPayload_eq_ok_iff.mpr ⟨h, Rlp.head_append hh rest, hlist, hfits,
        by rw [List.length_append]; omega, by rw [Rlp.Head.payload_append hle, hpay]⟩
    rw [if_neg fun hnil => hne (List.append_eq_nil_iff.mp hnil).1, hpayload', Outcome.ok_bind]
    exact hitems

end

end ZenoChain.EthTx
