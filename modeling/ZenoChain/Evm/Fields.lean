/-
# The fields of raw transactions

What the encoder writes is read back.  A raw transaction that is read is a list of items, and a
field is the number that its item encodes as long as the item is a string and the number fits.
The decoder checks neither: it takes a list with its header for a string, drops what does not fit
on the left, or of a scalar on the right, and takes any recipient that is not an address for none.
-/
import ZenoChain.Evm.Encodings

namespace ZenoChain.EthTx

open Codec Digits EthLibrary

/-! ## The round trip -/

/-- **What is encoded is decoded.** -/
theorem rlpDecodeList_encodeList (build : Build) {items : List Bytes}
    (hmem : (rlpEncodeList items).length < 2 ^ 63) :
    rlpDecodeList build (rlpEncodeList items) = .ok items := by
  rw [rlpEncodeList_eq] at hmem ⊢
  have hitem : ∀ b ∈ items, b.length < 2 ^ 64 := fun b hb => by
    have hle := length_le_of_mem (List.mem_map_of_mem (f := Rlp.string) hb)
    have hstring := Rlp.length_le_string b
    omega
  have hok : rlpDecodeList build (Rlp.list (items.map Rlp.string) ++ []) = .ok items :=
    rlpDecodeList_list (forall₂_encodes_string hitem) (hmem.trans (by decide)) []
  rwa [List.append_nil] at hok

/-- An empty string, bytes on both sides of `0x80`, and strings on both sides of the boundary of
short lengths. -/
theorem rlpDecodeList_boundaries :
    let items : List Bytes := [[], [0x7f], [0x80], List.replicate 55 1, List.replicate 56 1]
    rlpDecodeList .checked (rlpEncodeList items) = .ok items ∧
      rlpDecodeList .wrapping (rlpEncodeList items) = .ok items :=
  ⟨rlpDecodeList_encodeList .checked (by decide +kernel),
    rlpDecodeList_encodeList .wrapping (by decide +kernel)⟩

/-! ## Items -/

/-- The decoder returns a string as it is. -/
def Reads (item : Rlp.Item) (b : Bytes) : Prop := item.isList = false → b = item.payload

lemma rlpItems_of_splits (build : Build) {data : Bytes} {items : List Rlp.Item}
    (h : Rlp.Splits data items) (hmem : data.length < 2 ^ 63) {fuel : ℕ} (hfuel : data.length ≤ fuel) :
    ∃ bs, rlpItems build fuel data = .ok bs ∧ List.Forall₂ Reads items bs := by
  induction h generalizing fuel with
  | nil => exact ⟨[], by cases fuel <;> rfl, .nil⟩
  | @cons data h items hhead hle _ ih =>
    obtain ⟨-, -, hpos, -⟩ := Rlp.head_bounds hhead
    obtain ⟨e, e', heq⟩ := rlpNextItem_eq data
    have hnext : rlpNextItem build data = .ok (decodedItem h data, h.total) := by
      rw [heq build, hhead]
      exact takeItem_ok (by omega) hle
    obtain ⟨bs, hrest, hreads⟩ : ∃ bs, rlpItems build (fuel - 1) (data.drop h.total) = .ok bs ∧
        List.Forall₂ Reads items bs :=
      ih (by rw [List.length_drop]; omega) (by rw [List.length_drop]; omega)
    refine ⟨decodedItem h data :: bs, ?_, .cons (fun hstring => ?_) hreads⟩
    · obtain ⟨fuel, rfl⟩ : ∃ n, fuel = n + 1 := Nat.exists_eq_succ_of_ne_zero (by omega)
      cases data with
      | nil => cases hhead
      | cons first rest =>
        rw [rlpItems, hnext, Outcome.ok_bind]
        dsimp only
        rw [show rlpItems build fuel _ = .ok bs from hrest]
        rfl
    · rw [decodedItem, if_neg (by simpa using hstring)]

lemma rlpDecodeList_of_lists (build : Build) {data : Bytes} {items : List Rlp.Item}
    (h : Rlp.Lists data items) (hmem : data.length < 2 ^ 63) :
    ∃ bs, rlpDecodeList build data = .ok bs ∧ List.Forall₂ Reads items bs := by
  obtain ⟨h, hhead, hlist, hle, hsplits⟩ := h
  have hpayload : rlpListPayload build data = .ok (h.payload data) :=
    rlpListPayload_eq_ok_iff.mpr ⟨h, hhead, hlist, by omega, hle, rfl⟩
  have hshort : (h.payload data).length ≤ data.length := by
    rw [Rlp.Head.payload, List.length_take, List.length_drop]
    omega
  obtain ⟨bs, hbs, hreads⟩ := rlpItems_of_splits build hsplits
    (hshort.trans_lt hmem) le_rfl
  refine ⟨bs, ?_, hreads⟩
  rw [rlpDecodeList, if_neg (by rintro rfl; cases hhead), hpayload, Outcome.ok_bind, hbs]

/-! ## Fields -/

/-- The items that the fields of a transaction are read from.  A legacy transaction has no item for
its chain id. -/
structure Parts where
  chainId : Option Rlp.Item
  nonce : Rlp.Item
  gasPrice : Rlp.Item
  gasLimit : Rlp.Item
  recipient : Rlp.Item
  value : Rlp.Item
  v : Rlp.Item
  r : Rlp.Item
  s : Rlp.Item

def legacyParts : List Rlp.Item → Option Parts
  | [nonce, gasPrice, gasLimit, recipient, value, _, v, r, s] =>
    some { chainId := none, nonce, gasPrice, gasLimit, recipient, value, v, r, s }
  | _ => none

def eip1559Parts : List Rlp.Item → Option Parts
  | [chainId, nonce, _, maxFeePerGas, gasLimit, recipient, value, _, _, v, r, s] =>
    some { chainId := some chainId, nonce, gasPrice := maxFeePerGas, gasLimit, recipient, value
           v, r, s }
  | _ => none

/-- The raw transaction is a list with the given parts. -/
def HasParts (raw : Bytes) (p : Parts) : Prop :=
  ∃ items, Rlp.Lists (listOf raw) items ∧
    (if IsEip1559 raw then eip1559Parts items else legacyParts items) = some p

/-- The scalars and the recovery id that a sender is recovered with. -/
structure UsedSignature where
  r : ℕ
  s : ℕ
  recoveryId : ℕ

def usedSignature (build : Build) (raw : Bytes) : Outcome String UsedSignature := do
  let u ← readRaw build raw
  return { r := ofBe (leftPad32 u.r), s := ofBe (leftPad32 u.s), recoveryId := u.recoveryV }

/-- The fields and the signature are what the parts encode. -/
structure Parts.Keeps (p : Parts) (tx : DecodedEthTx) (used : UsedSignature) : Prop where
  nonce : p.nonce.number = some tx.nonce
  gasPrice : p.gasPrice.number = some tx.gasPrice
  gasLimit : p.gasLimit.number = some tx.gasLimit
  value : p.value.number = some tx.value
  recipient : p.recipient = ⟨false, (tx.recipient.map array20).getD []⟩
  chainId : match p.chainId with
    | some chainId =>
      chainId.number = some tx.chainId ∧ p.v.number = some used.recoveryId
    | none => p.v.number = some (35 + 2 * tx.chainId + used.recoveryId) ∨
      tx.chainId = 0 ∧ p.v.number = some (27 + used.recoveryId)
  r : p.r.number = some used.r
  s : p.s.number = some used.s

/-- No field of the decoded transaction and nothing of the signature is altered. -/
def Unaltered (build : Build) (raw : Bytes) (tx : DecodedEthTx) : Prop :=
  ∃ p used, HasParts raw p ∧ usedSignature build raw = .ok used ∧ p.Keeps tx used

/-- The item is a number of so many bits. -/
def IsNumber (item : Rlp.Item) (w : ℕ) : Prop := ∃ n ∈ item.number, n < 2 ^ w

/-- The item is a string of at most 32 bytes, or of zeros. -/
def IsScalar (item : Rlp.Item) : Prop :=
  item.isList = false ∧ (item.payload.length ≤ 32 ∨ ofBe item.payload = 0)

/-- The item is an address or empty. -/
def IsRecipient (item : Rlp.Item) : Prop :=
  item.isList = false ∧ (item.payload.length = 20 ∨ item.payload = [])

/-- The parts are of the kinds that the decoder takes them for. -/
structure Parts.Fits (p : Parts) : Prop where
  nonce : IsNumber p.nonce 64
  gasPrice : IsNumber p.gasPrice 128
  gasLimit : IsNumber p.gasLimit 64
  value : IsNumber p.value 128
  recipient : IsRecipient p.recipient
  chainId : match p.chainId with
    | some chainId => IsNumber chainId 64 ∧ IsNumber p.v 8
    | none => IsNumber p.v 64 ∧ ∀ v ∈ p.v.number, 27 ≤ v
  r : IsScalar p.r
  s : IsScalar p.s

section

variable {item : Rlp.Item} {b : Bytes}

lemma Reads.number_eq (h : Reads item b) :
    item.number = if item.isList then none else some (ofBe b) := by
  rw [Rlp.Item.number]
  by_cases hlist : item.isList = true
  · rw [if_pos hlist, if_pos hlist]
  · rw [if_neg hlist, if_neg hlist, h (by simpa using hlist)]

/-- A number is kept exactly if it fits. -/
lemma Reads.beToWord_iff (h : Reads item b) (w : ℕ) :
    item.number = some (beToWord w b) ↔ IsNumber item w := by
  rw [IsNumber, h.number_eq, beToWord_eq]
  split
  · simp
  · simp only [Option.some.injEq, Option.mem_def, exists_eq_left']
    constructor
    · intro heq
      rw [heq]
      exact Nat.mod_lt _ (Nat.two_pow_pos w)
    · exact fun hlt => (Nat.mod_eq_of_lt hlt).symm

lemma Reads.low_byte_iff (h : Reads item b) :
    item.number = some (rlpToU64 b % 256) ↔ IsNumber item 8 := by
  have hmod : rlpToU64 b % 256 = beToWord 8 b := by
    rw [rlpToU64, beToWord_eq, beToWord_eq]
    exact Nat.mod_mod_of_dvd _ (by decide)
  rw [hmod, h.beToWord_iff]

/-- The chain id and the recovery id of a legacy transaction are kept exactly if `v` fits into a
word and is not too small for both ways of writing it. -/
lemma Reads.legacy_iff (h : Reads item b) {id : ℕ}
    (hid : id = (if 35 ≤ rlpToU64 b then rlpToU64 b - 35 - 2 * legacyChainId (rlpToU64 b)
      else rlpToU64 b - 27) % 256) :
    (item.number = some (35 + 2 * legacyChainId (rlpToU64 b) + id) ∨
      legacyChainId (rlpToU64 b) = 0 ∧ item.number = some (27 + id)) ↔
        IsNumber item 64 ∧ ∀ v ∈ item.number, 27 ≤ v := by
  rw [IsNumber, h.number_eq]
  split
  · simp
  · simp only [Option.some.injEq, Option.mem_def, exists_eq_left', forall_eq']
    rw [rlpToU64, beToWord_eq] at hid ⊢
    rw [legacyChainId] at hid ⊢
    by_cases hlarge : 35 ≤ ofBe b % 2 ^ 64
    · simp only [if_pos hlarge] at hid ⊢
      omega
    · simp only [if_neg hlarge, true_and] at hid ⊢
      omega

/-- A scalar is kept exactly if nothing is cut off on the right, apart from nothing at all. -/
lemma Reads.leftPad32_iff (h : Reads item b) :
    item.number = some (ofBe (leftPad32 b)) ↔ IsScalar item := by
  rw [IsScalar, h.number_eq]
  split
  · rename_i hlist
    simp [hlist]
  · rename_i hstring
    have hstring : item.isList = false := by simpa using hstring
    rw [← h hstring]
    simp only [Option.some.injEq, hstring, true_and]
    rw [leftPad32, ofBe_replicate_zero_append]
    rcases Nat.lt_or_ge 32 b.length with hlong | hshort
    · have hsplit : ofBe b = ofBe (b.take 32) * 256 ^ (b.length - 32) + ofBe (b.drop 32) := by
        rw [← List.length_drop, ← ofBe_append, List.take_append_drop]
      have hpow : 2 ≤ 256 ^ (b.length - 32) := Nat.one_lt_pow (by omega) (by decide)
      have hle := Nat.mul_le_mul_left (ofBe (b.take 32)) hpow
      constructor
      · exact fun heq => .inr (by omega)
      · rintro (hle' | hzero)
        · omega
        · rw [hzero] at hsplit ⊢
          omega
    · rw [List.take_of_length_le hshort]
      exact iff_of_true rfl (.inl hshort)

/-- A recipient is kept exactly if it is an address or empty. -/
lemma Reads.recipient_iff (h : Reads item b) :
    item = ⟨false, ((rlpToAddress b).map array20).getD []⟩ ↔ IsRecipient item := by
  obtain ⟨isList, payload⟩ := item
  cases isList with
  | true => exact iff_of_false (fun heq => by cases congrArg Rlp.Item.isList heq) (fun h => by cases h.1)
  | false =>
    obtain rfl : b = payload := h rfl
    rw [Rlp.Item.mk.injEq, IsRecipient, rlpToAddress]
    simp only [true_and]
    split
    · rename_i hlength
      have hlt := ofBe_lt b
      rw [hlength] at hlt
      refine iff_of_true ?_ (.inl hlength)
      rw [Option.map_some, Option.getD_some, array20, BitVec.toNat_ofNat,
        show ofBe b % 2 ^ 160 = ofBe b from Nat.mod_eq_of_lt hlt]
      refine ofBe_inj ?_ (ofBe_beBytes hlt).symm
      rw [hlength, beBytes, List.length_reverse, length_leBytes]
    · rename_i hlength
      simp [hlength]

end

/-! ## Transactions -/

/-- What is read comes from the parts. -/
structure Parts.ReadAs (p : Parts) (u : Unrecovered) : Prop where
  nonce : ∃ b, Reads p.nonce b ∧ u.nonce = beToWord 64 b
  gasPrice : ∃ b, Reads p.gasPrice b ∧ u.gasPrice = beToWord 128 b
  gasLimit : ∃ b, Reads p.gasLimit b ∧ u.gasLimit = beToWord 64 b
  value : ∃ b, Reads p.value b ∧ u.value = beToWord 128 b
  recipient : ∃ b, Reads p.recipient b ∧ u.recipient = rlpToAddress b
  chainId : match p.chainId with
    | some chainId => (∃ b, Reads chainId b ∧ u.chainId = beToWord 64 b) ∧
      ∃ b, Reads p.v b ∧ u.recoveryV = rlpToU64 b % 256
    | none => ∃ b, Reads p.v b ∧ u.chainId = legacyChainId (rlpToU64 b) ∧
      u.recoveryV = (if 35 ≤ rlpToU64 b then rlpToU64 b - 35 - 2 * u.chainId
        else rlpToU64 b - 27) % 256
  r : Reads p.r u.r
  s : Reads p.s u.s

/-- Nine items are read as a legacy transaction. -/
lemma readLegacy_of_parts {items : List Rlp.Item} {bs : List Bytes} {p : Parts}
    (hreads : List.Forall₂ Reads items bs) (hparts : legacyParts items = some p) :
    ∃ u, readLegacy bs = .ok u ∧ p.ReadAs u := by
  unfold legacyParts at hparts
  split at hparts
  · cases hparts
    obtain _ | ⟨hnonce, _ | ⟨hgasPrice, _ | ⟨hgasLimit, _ | ⟨hrecipient, _ | ⟨hvalue, _ | ⟨-, _ |
      ⟨hv, _ | ⟨hr, _ | ⟨hs, _ | _⟩⟩⟩⟩⟩⟩⟩⟩⟩ := hreads
    exact ⟨_, rfl, ⟨_, hnonce, rfl⟩, ⟨_, hgasPrice, rfl⟩, ⟨_, hgasLimit, rfl⟩, ⟨_, hvalue, rfl⟩,
      ⟨_, hrecipient, rfl⟩, ⟨_, hv, rfl, rfl⟩, hr, hs⟩
  · cases hparts

/-- Twelve items are read as an EIP-1559 transaction. -/
lemma readEip1559_of_parts {items : List Rlp.Item} {bs : List Bytes} {p : Parts}
    (hreads : List.Forall₂ Reads items bs) (hparts : eip1559Parts items = some p) :
    ∃ u, readEip1559 bs = .ok u ∧ p.ReadAs u := by
  unfold eip1559Parts at hparts
  split at hparts
  · cases hparts
    obtain _ | ⟨hchainId, _ | ⟨hnonce, _ | ⟨-, _ | ⟨hgasPrice, _ | ⟨hgasLimit, _ | ⟨hrecipient, _ |
      ⟨hvalue, _ | ⟨-, _ | ⟨-, _ | ⟨hv, _ | ⟨hr, _ | ⟨hs, _ | _⟩⟩⟩⟩⟩⟩⟩⟩⟩⟩⟩⟩ := hreads
    exact ⟨_, rfl, ⟨_, hnonce, rfl⟩, ⟨_, hgasPrice, rfl⟩, ⟨_, hgasLimit, rfl⟩, ⟨_, hvalue, rfl⟩,
      ⟨_, hrecipient, rfl⟩, ⟨⟨_, hchainId, rfl⟩, _, hv, rfl⟩, hr, hs⟩
  · cases hparts

lemma HasParts.readRaw {raw : Bytes} {p : Parts} (h : HasParts raw p) (hmem : raw.length < 2 ^ 63)
    (build : Build) : ∃ u, readRaw build raw = .ok u ∧ p.ReadAs u := by
  obtain ⟨items, hlists, hparts⟩ := h
  have hshort : (listOf raw).length < 2 ^ 63 := by
    rw [listOf]
    split
    · rw [List.length_drop]
      omega
    · exact hmem
  obtain ⟨bs, hdecoded, hreads⟩ := rlpDecodeList_of_lists build hlists hshort
  rw [EthTx.readRaw, hdecoded, Outcome.ok_bind]
  split at hparts
  · rename_i htype
    rw [if_pos htype]
    exact readEip1559_of_parts hreads hparts
  · rename_i htype
    rw [if_neg htype]
    exact readLegacy_of_parts hreads hparts

/-- **Field by field.** -/
lemma Parts.ReadAs.keeps_iff {p : Parts} {u : Unrecovered} (h : p.ReadAs u) {tx : DecodedEthTx}
    {sender : EvmAddress} {txHash : Hash32} (htx : tx = { u with sender, txHash })
    {used : UsedSignature}
    (hused : used = { r := ofBe (leftPad32 u.r), s := ofBe (leftPad32 u.s), recoveryId := u.recoveryV }) :
    p.Keeps tx used ↔ p.Fits := by
  have hnumber : ∀ {item : Rlp.Item} {w n : ℕ}, (∃ b, Reads item b ∧ n = beToWord w b) →
      (item.number = some n ↔ IsNumber item w) := by
    rintro item w n ⟨b, hreads, rfl⟩
    exact hreads.beToWord_iff w
  have hrecipient : p.recipient = ⟨false, (u.recipient.map array20).getD []⟩ ↔
      IsRecipient p.recipient := by
    obtain ⟨b, hreads, heq⟩ := h.recipient
    rw [heq, hreads.recipient_iff]
  subst htx hused
  have hchainId : (match p.chainId with
      | some chainId => chainId.number = some u.chainId ∧ p.v.number = some u.recoveryV
      | none => p.v.number = some (35 + 2 * u.chainId + u.recoveryV) ∨
        u.chainId = 0 ∧ p.v.number = some (27 + u.recoveryV)) ↔
      match p.chainId with
      | some chainId => IsNumber chainId 64 ∧ IsNumber p.v 8
      | none => IsNumber p.v 64 ∧ ∀ v ∈ p.v.number, 27 ≤ v := by
    have hread := h.chainId
    cases hp : p.chainId with
    | some chainId =>
      rw [hp] at hread
      obtain ⟨hchainId, b, hv, heq⟩ := hread
      dsimp only
      rw [hnumber hchainId, heq, hv.low_byte_iff]
    | none =>
      rw [hp] at hread
      obtain ⟨b, hv, hchainId, hid⟩ := hread
      dsimp only
      rw [hchainId] at hid ⊢
      exact hv.legacy_iff hid
  exact ⟨fun k => ⟨(hnumber h.nonce).mp k.nonce, (hnumber h.gasPrice).mp k.gasPrice,
      (hnumber h.gasLimit).mp k.gasLimit, (hnumber h.value).mp k.value, hrecipient.mp k.recipient,
      hchainId.mp k.chainId, h.r.leftPad32_iff.mp k.r, h.s.leftPad32_iff.mp k.s⟩,
    fun f => ⟨(hnumber h.nonce).mpr f.nonce, (hnumber h.gasPrice).mpr f.gasPrice,
      (hnumber h.gasLimit).mpr f.gasLimit, (hnumber h.value).mpr f.value,
      hrecipient.mpr f.recipient, hchainId.mpr f.chainId, h.r.leftPad32_iff.mpr f.r,
      h.s.leftPad32_iff.mpr f.s⟩⟩

/-! ## Accepted lists -/

/-- A build with overflow checks accepts nothing but items that are there. -/
lemma splits_of_rlpItems {fuel : ℕ} {data : Bytes} {bs : List Bytes}
    (hok : rlpItems .checked fuel data = .ok bs) :
    ∃ items, Rlp.Splits data items ∧ items.length = bs.length := by
  induction fuel generalizing data bs with
  | zero =>
    cases data with
    | nil =>
      cases hok
      exact ⟨[], .nil, rfl⟩
    | cons first rest => cases hok
  | succ fuel ih =>
    cases data with
    | nil =>
      cases hok
      exact ⟨[], .nil, rfl⟩
    | cons first rest =>
      obtain ⟨⟨item, consumed⟩, hnext, hrest⟩ := Outcome.bind_eq_ok_iff.mp hok
      obtain ⟨bs', hbs', hdone⟩ := Outcome.bind_eq_ok_iff.mp hrest
      cases hdone
      obtain ⟨e, e', heq⟩ := rlpNextItem_eq (first :: rest)
      rw [heq] at hnext
      rcases hh : Rlp.head (first :: rest) with _ | h
      · rw [hh] at hnext
        cases hnext
      · rw [hh] at hnext
        dsimp only at hnext hbs'
        by_cases hfits : h.total < 2 ^ 64
        · by_cases hle : h.total ≤ (first :: rest).length
          · rw [takeItem_ok hfits hle] at hnext
            cases hnext
            obtain ⟨items, hsplits, hlength⟩ := ih hbs'
            exact ⟨_ :: items, .cons hh hle hsplits, congrArg (· + 1) hlength⟩
          · rw [takeItem_truncated hfits (Nat.lt_of_not_le hle)] at hnext
            cases hnext
        · rw [takeItem_overflow hfits] at hnext
          cases hnext

lemma legacyParts_of_read {items : List Rlp.Item} {bs : List Bytes} {u : Unrecovered}
    (hlength : items.length = bs.length) (hok : readLegacy bs = .ok u) :
    ∃ p, legacyParts items = some p := by
  unfold readLegacy at hok
  split at hok
  · match items, hlength with
    | [_, _, _, _, _, _, _, _, _], _ => exact ⟨_, rfl⟩
  · cases hok

lemma eip1559Parts_of_read {items : List Rlp.Item} {bs : List Bytes} {u : Unrecovered}
    (hlength : items.length = bs.length) (hok : readEip1559 bs = .ok u) :
    ∃ p, eip1559Parts items = some p := by
  unfold readEip1559 at hok
  split at hok
  · match items, hlength with
    | [_, _, _, _, _, _, _, _, _, _, _, _], _ => exact ⟨_, rfl⟩
  · cases hok

/-- A build with overflow checks accepts nothing without parts. -/
lemma hasParts_of_readRaw {raw : Bytes} {u : Unrecovered} (hok : readRaw .checked raw = .ok u) :
    ∃ p, HasParts raw p := by
  obtain ⟨bs, hdecoded, hread⟩ := Outcome.bind_eq_ok_iff.mp hok
  rw [rlpDecodeList] at hdecoded
  split at hdecoded
  · cases hdecoded
  · obtain ⟨payload, hpayload, hitems⟩ := Outcome.bind_eq_ok_iff.mp hdecoded
    obtain ⟨h, hh, hlist, -, hle, rfl⟩ := rlpListPayload_eq_ok_iff.mp hpayload
    obtain ⟨items, hsplits, hlength⟩ := splits_of_rlpItems hitems
    have hlists : Rlp.Lists (listOf raw) items := ⟨h, hh, hlist, hle, hsplits⟩
    split at hread
    · rename_i htype
      obtain ⟨p, hp⟩ := eip1559Parts_of_read hlength hread
      exact ⟨p, items, hlists, by rwa [if_pos htype]⟩
    · rename_i htype
      obtain ⟨p, hp⟩ := legacyParts_of_read hlength hread
      exact ⟨p, items, hlists, by rwa [if_neg htype]⟩

/-! ## Accepted transactions -/

section

variable [EthLibrary]

/-- **Fields of accepted transactions.**  Whatever the build, a raw transaction that is accepted is
decoded without alteration exactly if it is a list of parts of the kinds that the decoder takes
them for; with overflow checks it is always a list of parts. -/
theorem decodeRawTx_unaltered_iff (build : Build) {rawHex : String} {raw : Bytes}
    {tx : DecodedEthTx} (hhex : hexDecode (stripHex rawHex.toList) = some raw)
    (hmem : raw.length < 2 ^ 63) (hok : decodeRawTx build rawHex = .ok tx) :
    (Unaltered build raw tx ↔ ∃ p, HasParts raw p ∧ p.Fits) ∧
      (build = .checked → ∃ p, HasParts raw p) := by
  rw [decodeRawTx, hhex] at hok
  dsimp only at hok
  have hne : raw ≠ [] := by
    rintro rfl
    cases hok
  rw [decodeRaw_eq build hne] at hok
  obtain ⟨u, hu, hrecover⟩ := Outcome.bind_eq_ok_iff.mp hok
  obtain ⟨sender, -, htx⟩ := Outcome.bind_eq_ok_iff.mp hrecover
  have htx : tx = { u with sender, txHash := keccak256 raw } := (Outcome.ok.inj htx).symm
  have hused : usedSignature build raw =
      .ok { r := ofBe (leftPad32 u.r), s := ofBe (leftPad32 u.s), recoveryId := u.recoveryV } := by
    rw [usedSignature, hu]
    rfl
  have hkeeps : ∀ {p}, HasParts raw p → ∀ {used}, usedSignature build raw = .ok used →
      (p.Keeps tx used ↔ p.Fits) := by
    intro p hp used hused'
    obtain ⟨u', hu', hreads⟩ := hp.readRaw hmem build
    obtain rfl := Outcome.ok.inj (hu'.symm.trans hu)
    exact hreads.keeps_iff htx (Outcome.ok.inj (hused'.symm.trans hused))
  refine ⟨⟨?_, ?_⟩, ?_⟩
  · rintro ⟨p, used, hp, hused', hk⟩
    exact ⟨p, hp, (hkeeps hp hused').mp hk⟩
  · rintro ⟨p, hp, hf⟩
    exact ⟨p, _, hp, hused, (hkeeps hp hused).mpr hf⟩
  · rintro rfl
    exact hasParts_of_readRaw hu

end

/-! ## Two payments -/

section

open Transparent

/-- The parts of an encoded list of strings. -/
lemma hasParts_legacy {l : List Bytes} {p : Parts} (hlen : ∀ b ∈ l, b.length < 2 ^ 64)
    (hmem : (l.map Rlp.string).flatten.length < 2 ^ 64)
    (hp : legacyParts (l.map (Rlp.Item.mk false)) = some p) : HasParts (rlpEncodeList l) p := by
  have hlists := Rlp.lists_strings hlen hmem []
  rw [List.append_nil, ← rlpEncodeList_eq] at hlists
  obtain ⟨first, rest, hcons, hfirst⟩ := Rlp.list_eq_cons hmem
  have htype : ¬ IsEip1559 (rlpEncodeList l) := by
    rw [rlpEncodeList_eq, hcons, IsEip1559, List.head?_cons]
    intro htwo
    rw [Option.some.inj htwo] at hfirst
    exact absurd hfirst (by decide)
  exact ⟨_, by rwa [listOf, if_neg htype], by rwa [if_neg htype]⟩

/-- The strings of a legacy payment with the given nonce. -/
def paymentStrings (nonce : Bytes) : List Bytes :=
  [nonce, [10], [0x52, 0x08], List.replicate 19 0 ++ [7], [5], [], [37], [1], [2]]

/-- A nonce of `2 ^ 64` comes out as zero. -/
theorem longNonce_altered :
    let raw := rlpEncodeList (paymentStrings (1 :: List.replicate 8 0))
    hexDecode (stripHex (hexEncode raw).toList) = some raw ∧
      ∃ tx, decodeRawTx .checked (hexEncode raw) = .ok tx ∧ tx.nonce = 0 ∧
        ¬ Unaltered .checked raw tx := by
  intro raw
  have hparts : HasParts raw _ := hasParts_legacy (by decide +kernel) (by decide +kernel) rfl
  refine ⟨by rw [stripHex_hexEncode, hexDecode_hexEncode],
    { decodedPayment with txHash := keccak256 raw }, by decide +kernel, rfl, ?_⟩
  rintro ⟨p, used, ⟨items, hlists, hp⟩, -, hkeeps⟩
  obtain ⟨items', hlists', hp'⟩ := hparts
  obtain rfl := hlists.unique hlists'
  obtain rfl := Option.some.inj (hp'.symm.trans hp)
  exact absurd hkeeps.nonce (by decide +kernel)

/-- A nonce of 1 and the other fields come out as they are. -/
theorem shortNonce_unaltered :
    let raw := rlpEncodeList (paymentStrings [1])
    Unaltered .checked raw { decodedPayment with nonce := 1, txHash := keccak256 raw } := by
  intro raw
  have hhex : hexDecode (stripHex (hexEncode raw).toList) = some raw := by
    rw [stripHex_hexEncode, hexDecode_hexEncode]
  refine (decodeRawTx_unaltered_iff .checked hhex (by decide +kernel) (by decide +kernel)).1.mpr
    ⟨_, hasParts_legacy (by decide +kernel) (by decide +kernel) rfl, ?_⟩
  exact
    { nonce := ⟨1, rfl, by decide⟩
      gasPrice := ⟨10, rfl, by decide⟩
      gasLimit := ⟨21000, rfl, by decide⟩
      value := ⟨5, rfl, by decide⟩
      recipient := ⟨rfl, .inl rfl⟩
      chainId := ⟨⟨37, rfl, by decide⟩, by decide⟩
      r := ⟨rfl, .inl (by decide)⟩
      s := ⟨rfl, .inl (by decide)⟩ }

end

end ZenoChain.EthTx
