/-
# Transactions and their encodings

The canonical encodings of signed legacy and EIP-1559 transactions, the payloads that their types
prescribe for the signature, and what the decoder makes of both.

The decoder ignores what follows its list, so no accepted transaction has only one encoding.  It
returns inner lists with their headers and encodes them once more as strings, so that no EIP-1559
transaction has its payload rebuilt; that of a legacy transaction is, if its `v` fits into a word.
-/
import ZenoChain.Evm.EthTx

namespace ZenoChain

namespace EthTx

open Codec Digits EthLibrary

/-! ## Hexadecimal digits there and back -/

lemma hexValue_digitChar {n : ℕ} (h : n < 16) :
    hexValue (Nat.digitChar n) = some n ∧ Nat.digitChar n ≠ 'x' := by
  have hall : ∀ n < 16, hexValue (Nat.digitChar n) = some n ∧ Nat.digitChar n ≠ 'x' := by decide
  exact hall n h

lemma hexDecode_hexEncode (raw : Bytes) : hexDecode (hexEncode raw).toList = some raw := by
  rw [hexEncode, String.toList_ofList]
  induction raw with
  | nil => rfl
  | cons b raw ih =>
    have hb := b.toNat_lt
    have hbyte : UInt8.ofNat (b.toNat / 16 * 16 + b.toNat % 16) = b := by
      rw [Nat.div_add_mod', UInt8.ofNat_toNat]
    rw [List.flatMap_cons, List.cons_append, List.cons_append, List.nil_append, hexDecode,
      (hexValue_digitChar (by omega : b.toNat / 16 < 16)).1,
      (hexValue_digitChar (by omega : b.toNat % 16 < 16)).1, ih]
    dsimp only
    rw [hbyte]

lemma stripHex_hexEncode (raw : Bytes) : stripHex (hexEncode raw).toList = (hexEncode raw).toList := by
  rw [hexEncode, String.toList_ofList]
  cases raw with
  | nil => rfl
  | cons b raw =>
    have hb := b.toNat_lt
    have hx := (hexValue_digitChar (by omega : b.toNat % 16 < 16)).2
    rw [List.flatMap_cons, List.cons_append, List.cons_append, stripHex.eq_def]
    split
    · rename_i heq
      exact absurd (List.cons.inj (List.cons.inj heq).2).1 hx
    · rfl

lemma decodeRawTx_hexEncode [EthLibrary] (build : Build) (raw : Bytes) :
    decodeRawTx build (hexEncode raw) = decodeRaw build raw := by
  rw [decodeRawTx, stripHex_hexEncode, hexDecode_hexEncode]

/-! ## No encoding is the only one -/

/-- **A byte may follow.**  Every accepted transaction has another encoding of the same type that is
decoded to the same items, and so to the same fields from the same signature. -/
theorem encoding_not_canonical [EthLibrary] (build : Build) {x : Bytes} {tx : DecodedEthTx}
    (hx : decodeRawTx build (hexEncode x) = .ok tx) :
    ∃ y, y ≠ x ∧ decodeRawTx build (hexEncode y) = .ok { tx with txHash := keccak256 y } ∧
      (IsEip1559 y ↔ IsEip1559 x) ∧
      rlpDecodeList build (listOf y) = rlpDecodeList build (listOf x) := by
  rw [decodeRawTx_hexEncode] at hx
  have hne : x ≠ [] := by
    rintro rfl
    cases hx
  have htype : IsEip1559 (x ++ [0]) ↔ IsEip1559 x := by
    rw [IsEip1559, IsEip1559, List.head?_append_of_ne_nil _ hne]
  have hlist : listOf (x ++ [0]) = listOf x ++ [0] := by
    rw [listOf, listOf]
    by_cases h : IsEip1559 x
    · rw [if_pos h, if_pos (htype.mpr h)]
      exact List.drop_append_of_le_length (List.length_pos_iff.mpr hne)
    · rw [if_neg h, if_neg fun hc => h (htype.mp hc)]
  rw [decodeRaw_eq build hne] at hx
  obtain ⟨u, hu, hrecover⟩ := Outcome.bind_eq_ok_iff.mp hx
  obtain ⟨items, hitems, hread⟩ := Outcome.bind_eq_ok_iff.mp hu
  have hitems' : rlpDecodeList build (listOf (x ++ [0])) = .ok items := by
    rw [hlist]
    exact rlpDecodeList_append hitems [0]
  have hu' : readRaw build (x ++ [0]) = .ok u := by
    rw [readRaw, hitems', Outcome.ok_bind, ← hread]
    exact if_congr htype rfl rfl
  refine ⟨x ++ [0], by simp, ?_, htype, by rw [hitems', hitems]⟩
  rw [decodeRawTx_hexEncode, decodeRaw_eq build (by simp), hu', Outcome.ok_bind]
  rw [Unrecovered.recover] at hrecover ⊢
  obtain ⟨sender, hsender, htx⟩ := Outcome.bind_eq_ok_iff.mp hrecover
  rw [hsender, ← Outcome.ok.inj htx]
  rfl

/-! ## Canonical transactions -/

/-- The fields that both types share. -/
structure CallFields where
  nonce : ℕ
  gasLimit : ℕ
  recipient : Option EvmAddress
  value : ℕ
  data : Bytes

/-- A transaction before it is signed: a legacy transaction of a chain (EIP-155), or one of type 2. -/
inductive UnsignedTx
  | legacy (call : CallFields) (gasPrice chainId : ℕ)
  | eip1559 (call : CallFields) (chainId maxPriorityFee maxFeePerGas : ℕ)
      (accessList : List (EvmAddress × List Hash32))

/-- The numbers of a signature. -/
structure EthSignature where
  yParity : Bool
  r : ℕ
  s : ℕ
  r_lt : r < 256 ^ 32
  s_lt : s < 256 ^ 32

/-- The bytes of a recipient; none for the creation of a contract. -/
def recipientBytes : Option EvmAddress → Bytes
  | none => []
  | some address => array20 address

/-- The encoding of an access list: a list of addresses with their storage keys. -/
def accessListRlp (accessList : List (EvmAddress × List Hash32)) : Bytes :=
  Rlp.list (accessList.map fun e =>
    Rlp.list [Rlp.string (array20 e.1), Rlp.list (e.2.map fun key => Rlp.string (array32 key))])

namespace UnsignedTx

/-- The strings of the signed fields. -/
def fields : UnsignedTx → List Bytes
  | legacy call gasPrice _ =>
    [toBe call.nonce, toBe gasPrice, toBe call.gasLimit, recipientBytes call.recipient,
      toBe call.value, call.data]
  | eip1559 call chainId maxPriorityFee maxFeePerGas _ =>
    [toBe chainId, toBe call.nonce, toBe maxPriorityFee, toBe maxFeePerGas, toBe call.gasLimit,
      recipientBytes call.recipient, toBe call.value, call.data]

/-- The payload that the type prescribes for the signature. -/
def signingPayload : UnsignedTx → Bytes
  | tx@(legacy _ _ chainId) => Rlp.list ((tx.fields ++ [toBe chainId, [], []]).map Rlp.string)
  | tx@(eip1559 _ _ _ _ accessList) =>
    0x02 :: Rlp.list (tx.fields.map Rlp.string ++ [accessListRlp accessList])

/-- The number `v` of a signature. -/
def v (tx : UnsignedTx) (signature : EthSignature) : ℕ :=
  match tx with
  | legacy _ _ chainId => 35 + 2 * chainId + signature.yParity.toNat
  | eip1559 .. => signature.yParity.toNat

/-- The strings of a signature. -/
def signatureFields (tx : UnsignedTx) (signature : EthSignature) : List Bytes :=
  [toBe (tx.v signature), toBe signature.r, toBe signature.s]

/-- The encoded items of the signed transaction. -/
def encoded (tx : UnsignedTx) (signature : EthSignature) : List Bytes :=
  match tx with
  | legacy .. => (tx.fields ++ tx.signatureFields signature).map Rlp.string
  | eip1559 _ _ _ _ accessList =>
    tx.fields.map Rlp.string ++
      accessListRlp accessList :: (tx.signatureFields signature).map Rlp.string

/-- The bytes of the signed transaction. -/
def signed (tx : UnsignedTx) (signature : EthSignature) : Bytes :=
  match tx with
  | legacy .. => Rlp.list (tx.encoded signature)
  | eip1559 .. => 0x02 :: Rlp.list (tx.encoded signature)

/-- The 64 bytes of a signature. -/
def signatureBytes (signature : EthSignature) : Bytes :=
  beBytes 32 signature.r ++ beBytes 32 signature.s

/-- The key has signed the prescribed payload, and is recovered from this signature. -/
structure SignedBy [EthLibrary] (tx : UnsignedTx) (signature : EthSignature) (key : Bytes) : Prop where
  accepted : checkSignature (signatureBytes signature) = .ok ()
  recovered : recoverFromPrehash (keccak256 tx.signingPayload) (signatureBytes signature)
    signature.yParity.toNat = .ok key

/-- A legacy transaction whose `v` fits into a word of 64 bits. -/
def InWords (tx : UnsignedTx) (signature : EthSignature) : Prop :=
  match tx with
  | legacy .. => tx.v signature < 2 ^ 64
  | eip1559 .. => False

end UnsignedTx

/-- The bytes that the decoder hashes for the recovery of the sender. -/
def signingInput (build : Build) (raw : Bytes) : Outcome String Bytes := do
  let u ← readRaw build raw
  return u.signingInput

lemma forall₂_encodes_string {l : List Bytes} (h : ∀ b ∈ l, b.length < 2 ^ 64) :
    List.Forall₂ Encodes (l.map Rlp.string) l := by
  induction l with
  | nil => exact .nil
  | cons b l ih =>
    obtain ⟨hb, hl⟩ := List.forall_mem_cons.mp h
    exact .cons (encodes_string hb) (ih hl)

/-- An item of a list is not longer than the list. -/
lemma length_le_of_mem {encoded : List Bytes} {x : Bytes} (hx : x ∈ encoded) :
    x.length ≤ (Rlp.list encoded).length :=
  (List.Sublist.length_le (List.sublist_flatten_of_mem hx)).trans (Rlp.flatten_le_list encoded)

/-- What the decoder returns for the items of a signed transaction: the access list comes with its
header. -/
def UnsignedTx.items (tx : UnsignedTx) (signature : EthSignature) : List Bytes :=
  match tx with
  | legacy .. => tx.fields ++ tx.signatureFields signature
  | eip1559 _ _ _ _ accessList =>
    tx.fields ++ accessListRlp accessList :: tx.signatureFields signature

lemma UnsignedTx.encodes_items (tx : UnsignedTx) (signature : EthSignature)
    (hmem : (Rlp.list (tx.encoded signature)).length < 2 ^ 63) :
    List.Forall₂ Encodes (tx.encoded signature) (tx.items signature) := by
  have hstring : ∀ b, Rlp.string b ∈ tx.encoded signature → b.length < 2 ^ 64 := by
    intro b hb
    have hle := length_le_of_mem hb
    have hb := Rlp.length_le_string b
    omega
  cases tx with
  | legacy call gasPrice chainId =>
    exact forall₂_encodes_string fun b hb => hstring b (List.mem_map_of_mem hb)
  | eip1559 call chainId maxPriorityFee maxFeePerGas accessList =>
    refine List.rel_append (forall₂_encodes_string fun b hb => hstring b ?_)
      (.cons (encodes_list ?_) (forall₂_encodes_string fun b hb => hstring b ?_))
    · exact List.mem_append_left _ (List.mem_map_of_mem hb)
    · have hle := length_le_of_mem (List.mem_append_right
        ((eip1559 call chainId maxPriorityFee maxFeePerGas accessList).fields.map Rlp.string)
        (List.mem_cons_self : accessListRlp accessList ∈ accessListRlp accessList ::
          ((eip1559 call chainId maxPriorityFee maxFeePerGas accessList).signatureFields
            signature).map Rlp.string))
      exact ((Rlp.flatten_le_list _).trans hle).trans_lt (hmem.trans (by decide))
    · exact List.mem_append_right _ (List.mem_cons_of_mem _ (List.mem_map_of_mem hb))

/-- **A signed transaction is read by the function of its type.** -/
lemma UnsignedTx.readRaw_signed (tx : UnsignedTx) (signature : EthSignature) (build : Build)
    (hmem : (tx.signed signature).length < 2 ^ 63) :
    readRaw build (tx.signed signature) =
      match tx with
      | legacy .. => readLegacy (tx.items signature)
      | eip1559 .. => readEip1559 (tx.items signature) := by
  have hlength : (Rlp.list (tx.encoded signature)).length < 2 ^ 63 := by
    cases tx with
    | legacy => exact hmem
    | eip1559 => exact (Nat.lt_succ_self _).trans hmem
  have hitems : rlpDecodeList build (Rlp.list (tx.encoded signature)) = .ok (tx.items signature) := by
    have hok : rlpDecodeList build (Rlp.list (tx.encoded signature) ++ []) = _ :=
      rlpDecodeList_list (tx.encodes_items signature hlength) (hlength.trans (by decide)) []
    rwa [List.append_nil] at hok
  cases tx with
  | legacy call gasPrice chainId =>
    have hflatten := Rlp.flatten_le_list ((legacy call gasPrice chainId).encoded signature)
    obtain ⟨first, rest, hcons, hfirst⟩ :=
      Rlp.list_eq_cons (hflatten.trans_lt (hlength.trans (by decide)))
    have htype : ¬ IsEip1559 ((legacy call gasPrice chainId).signed signature) := by
      rw [signed, IsEip1559, hcons, List.head?_cons]
      intro htwo
      rw [Option.some.inj htwo] at hfirst
      exact absurd hfirst (by decide)
    rw [readRaw, listOf, if_neg htype, signed, hitems, Outcome.ok_bind]
    exact if_neg htype
  | eip1559 call chainId maxPriorityFee maxFeePerGas accessList =>
    have htype : IsEip1559 ((eip1559 call chainId maxPriorityFee maxFeePerGas accessList).signed
        signature) := rfl
    rw [readRaw, listOf, if_pos htype, signed, List.drop_one, List.tail_cons, hitems, Outcome.ok_bind]
    exact if_pos htype

lemma rlpToU64_toBe (n : ℕ) : rlpToU64 (toBe n) = n % 2 ^ 64 := by
  rw [rlpToU64, beToWord_eq, ofBe_toBe]

lemma leftPad32_toBe {n : ℕ} (h : n < 256 ^ 32) : leftPad32 (toBe n) = beBytes 32 n := by
  have hlength : (toBe n).length ≤ 32 := length_toBe_le_iff.mpr h
  refine ofBe_inj ?_ ?_
  · rw [leftPad32, List.take_of_length_le hlength, List.length_append, List.length_replicate,
      beBytes, List.length_reverse, length_leBytes]
    omega
  · rw [leftPad32, List.take_of_length_le hlength, ofBe_replicate_zero_append, ofBe_toBe,
      ofBe_beBytes h]

/-- The chain id is read back exactly from a `v` that fits into a word. -/
lemma legacyChainId_eq_iff (chainId : ℕ) (b : Bool) :
    legacyChainId ((35 + 2 * chainId + b.toNat) % 2 ^ 64) = chainId ↔
      35 + 2 * chainId + b.toNat < 2 ^ 64 := by
  have hb := b.toNat_lt
  rw [legacyChainId]
  constructor
  · intro h
    split at h <;> omega
  · intro h
    rw [Nat.mod_eq_of_lt h, if_pos (by omega)]
    omega

lemma UnsignedTx.SignedBy.recoverSender [EthLibrary] {tx : UnsignedTx} {signature : EthSignature}
    {key : Bytes} (h : tx.SignedBy signature key) :
    recoverSender (keccak256 tx.signingPayload) (toBe signature.r) (toBe signature.s)
      signature.yParity.toNat = .ok (ethAddress key) := by
  have hparity : ¬ 3 < signature.yParity.toNat := by
    have := signature.yParity.toNat_lt
    omega
  have haccepted : checkSignature (beBytes 32 signature.r ++ beBytes 32 signature.s) = .ok () :=
    h.accepted
  have hrecovered : recoverFromPrehash (keccak256 tx.signingPayload)
      (beBytes 32 signature.r ++ beBytes 32 signature.s) signature.yParity.toNat = .ok key :=
    h.recovered
  rw [EthTx.recoverSender, leftPad32_toBe signature.r_lt, leftPad32_toBe signature.s_lt, haccepted]
  dsimp only
  rw [if_neg hparity, hrecovered]

lemma legacyChainId_lt (n : ℕ) : legacyChainId (n % 2 ^ 64) < 2 ^ 64 := by
  have := Nat.mod_lt n (Nat.two_pow_pos 64)
  rw [legacyChainId]
  split <;> omega

/-- What is read of a legacy transaction: the payload of the chain id that is read back is hashed. -/
lemma readLegacy_items (call : CallFields) (gasPrice chainId : ℕ) (signature : EthSignature) :
    ∃ u, readLegacy ((UnsignedTx.legacy call gasPrice chainId).items signature) = .ok u ∧
      u.signingInput = Rlp.list (((UnsignedTx.legacy call gasPrice chainId).fields ++
        [toBe (legacyChainId ((35 + 2 * chainId + signature.yParity.toNat) % 2 ^ 64)), [], []]).map
          Rlp.string) ∧
      u.r = toBe signature.r ∧ u.s = toBe signature.s ∧
      (35 + 2 * chainId + signature.yParity.toNat < 2 ^ 64 →
        u.recoveryV = signature.yParity.toNat) := by
  refine ⟨_, rfl, ?_, rfl, rfl, fun hlt => ?_⟩
  · rw [← rlpFromU64_eq (legacyChainId_lt _), ← rlpToU64_toBe, ← rlpEncodeList_eq]
    rfl
  · have hb := signature.yParity.toNat_lt
    have hid := (legacyChainId_eq_iff chainId signature.yParity).mpr hlt
    show (if 35 ≤ rlpToU64 (toBe (35 + 2 * chainId + signature.yParity.toNat)) then
        rlpToU64 (toBe (35 + 2 * chainId + signature.yParity.toNat)) - 35 -
          2 * legacyChainId (rlpToU64 (toBe (35 + 2 * chainId + signature.yParity.toNat)))
      else rlpToU64 (toBe (35 + 2 * chainId + signature.yParity.toNat)) - 27) % 256 = _
    rw [rlpToU64_toBe, hid, Nat.mod_eq_of_lt hlt, if_pos (by omega)]
    omega

/-- The payloads of two chain ids after the same fields. -/
lemma payload_eq_iff {fields : List Bytes} {n m : ℕ} (hn : (toBe n).length < 2 ^ 64)
    (hm : (toBe m).length < 2 ^ 64) :
    Rlp.list ((fields ++ [toBe n, [], []]).map Rlp.string) =
      Rlp.list ((fields ++ [toBe m, [], []]).map Rlp.string) ↔ n = m := by
  constructor
  · intro heq
    have hflatten := Rlp.flatten_eq_of_list_eq heq
    rw [List.map_append, List.map_append, List.flatten_append, List.flatten_append] at hflatten
    exact toBe_inj (Rlp.string_inj hn hm (List.append_cancel_right (List.append_cancel_left hflatten)))
  · rintro rfl
    rfl

/-- **When the right bytes are hashed.**  For every canonical signed transaction that memory holds,
the bytes that are hashed for the recovery are those that its type prescribes exactly if it is a
legacy transaction whose `v` fits into a word; and then the returned sender is the signer. -/
theorem signingInput_eq_iff [EthLibrary] (build : Build) (tx : UnsignedTx) (signature : EthSignature)
    (hmem : (tx.signed signature).length < 2 ^ 63) :
    (signingInput build (tx.signed signature) = .ok tx.signingPayload ↔ tx.InWords signature) ∧
      (tx.InWords signature → ∀ key, tx.SignedBy signature key →
        ∃ decoded, decodeRaw build (tx.signed signature) = .ok decoded ∧
          decoded.sender = ethAddress key) := by
  have hread := tx.readRaw_signed signature build hmem
  cases tx with
  | legacy call gasPrice chainId =>
    obtain ⟨u, hu, hinput, hr, hs, hrecovery⟩ := readLegacy_items call gasPrice chainId signature
    replace hread := hread.trans hu
    have hv : (UnsignedTx.legacy call gasPrice chainId).v signature =
        35 + 2 * chainId + signature.yParity.toNat := rfl
    have hlength : (toBe chainId).length < 2 ^ 64 := by
      have hmono := length_toBe_mono (show chainId ≤ 35 + 2 * chainId + signature.yParity.toNat by omega)
      have hmem' : Rlp.string (toBe (35 + 2 * chainId + signature.yParity.toNat)) ∈
          (UnsignedTx.legacy call gasPrice chainId).encoded signature :=
        List.mem_map_of_mem (List.mem_append_right _ List.mem_cons_self)
      have hle := length_le_of_mem hmem'
      have hstring := Rlp.length_le_string (toBe (35 + 2 * chainId + signature.yParity.toNat))
      rw [UnsignedTx.signed] at hmem
      omega
    have hiff : u.signingInput = (UnsignedTx.legacy call gasPrice chainId).signingPayload ↔
        (UnsignedTx.legacy call gasPrice chainId).InWords signature := by
      rw [hinput, UnsignedTx.signingPayload, UnsignedTx.InWords, hv, ← legacyChainId_eq_iff]
      refine payload_eq_iff ?_ hlength
      refine (length_toBe_le_iff.mpr (?_ : _ < 256 ^ 8)).trans_lt (by decide)
      exact legacyChainId_lt _
    refine ⟨?_, fun hwords key hkey => ?_⟩
    · rw [signingInput, hread, Outcome.ok_bind, Outcome.pure_eq, Outcome.ok.injEq, hiff]
    · have hne : (UnsignedTx.legacy call gasPrice chainId).signed signature ≠ [] := by
        intro hnil
        rw [hnil] at hread
        cases hread
      rw [decodeRaw_eq build hne, hread, Outcome.ok_bind, Unrecovered.recover, hr, hs,
        hiff.mpr hwords, hrecovery hwords, hkey.recoverSender]
      exact ⟨_, rfl, rfl⟩
  | eip1559 call chainId maxPriorityFee maxFeePerGas accessList =>
    refine ⟨iff_of_false (fun hok => ?_) id, False.elim⟩
    rw [signingInput, hread] at hok
    -- The access list gets a second header, so that what is hashed is longer.
    have hpayload : 0x02 :: rlpEncodeList ((UnsignedTx.eip1559 call chainId maxPriorityFee maxFeePerGas
        accessList).fields ++ [accessListRlp accessList]) = 0x02 :: Rlp.list ((UnsignedTx.eip1559 call
        chainId maxPriorityFee maxFeePerGas accessList).fields.map Rlp.string ++
          [accessListRlp accessList]) := Outcome.ok.inj hok
    have hlist := (List.cons.inj hpayload).2
    rw [rlpEncodeList_eq, List.map_append] at hlist
    have hflatten := Rlp.flatten_eq_of_list_eq hlist
    rw [List.flatten_append, List.flatten_append] at hflatten
    have hstring := congrArg List.length (List.append_cancel_left hflatten)
    have hmem' : accessListRlp accessList ∈ (UnsignedTx.eip1559 call chainId maxPriorityFee maxFeePerGas
        accessList).encoded signature := List.mem_append_right _ List.mem_cons_self
    have hle := length_le_of_mem hmem'
    have hflat := Rlp.flatten_le_list (accessList.map fun e =>
      Rlp.list [Rlp.string (array20 e.1), Rlp.list (e.2.map fun key => Rlp.string (array32 key))])
    rw [UnsignedTx.signed, List.length_cons] at hmem
    rw [accessListRlp] at hle hstring
    have hlonger := Rlp.length_lt_string_list
      (hflat.trans_lt (hle.trans_lt ((Nat.lt_of_succ_lt hmem).trans (by decide))))
    rw [List.map_singleton, List.flatten_singleton, List.flatten_singleton] at hstring
    omega

/-! ## A payment -/

section

open Transparent

/-- A call of the address 7 without data. -/
def plainCall : CallFields := { nonce := 0, gasLimit := 21000, recipient := some 7, value := 5, data := [] }

/-- The signature of the key that is the number 2. -/
def plainSignature : EthSignature :=
  { yParity := false, r := 1, s := 2
    r_lt := by decide, s_lt := by decide }

/-- A legacy payment on the chain 1. -/
def legacyPayment : UnsignedTx := .legacy plainCall 10 1

/-- A payment of type 2 with an empty access list. -/
def typedPayment : UnsignedTx := .eip1559 plainCall 1 0 10 []

/-- What is hashed for the payment of type 2 has the byte `81` in front of the empty list `c0`. -/
theorem typedPayment_hashed :
    signingInput .checked (typedPayment.signed plainSignature) ≠ .ok typedPayment.signingPayload ∧
      signingInput .wrapping (typedPayment.signed plainSignature) ≠
        .ok typedPayment.signingPayload := by
  decide +kernel

/-- The legacy payment is hashed as prescribed, and its sender is found. -/
theorem legacyPayment_hashed :
    signingInput .checked (legacyPayment.signed plainSignature) = .ok legacyPayment.signingPayload ∧
      ∃ decoded, decodeRaw .checked (legacyPayment.signed plainSignature) = .ok decoded ∧
        decoded.sender = ethAddress (beBytes 32 2) := by
  have hwords : legacyPayment.InWords plainSignature := by
    rw [legacyPayment, UnsignedTx.InWords]
    decide
  have hmem : (legacyPayment.signed plainSignature).length < 2 ^ 63 := by decide +kernel
  obtain ⟨hinput, hsender⟩ := signingInput_eq_iff .checked legacyPayment plainSignature hmem
  exact ⟨hinput.mpr hwords, hsender hwords _ ⟨rfl, by decide +kernel⟩⟩

set_option maxRecDepth 2000 in
/-- With a zero byte behind it, the legacy payment is decoded to the same items and the same
fields. -/
theorem legacyPayment_padded :
    let x := legacyPayment.signed plainSignature
    let fields (raw : Bytes) :=
      (decodeRawTx .checked (hexEncode raw)).value?.map fun tx => { tx with txHash := 0 }
    x ++ [0] ≠ x ∧ (fields x).isSome ∧ fields (x ++ [0]) = fields x ∧
      rlpDecodeList .checked (listOf (x ++ [0])) = rlpDecodeList .checked (listOf x) := by
  decide +kernel

/-- The legacy payment as it is decoded. -/
def decodedPayment : DecodedEthTx :=
  { sender := ethAddress (beBytes 32 2), nonce := 0, gasPrice := 10, gasLimit := 21000
    recipient := some 7, value := 5, data := [], chainId := 1
    txHash := keccak256 (legacyPayment.signed plainSignature) }

/-- Another encoding of the legacy payment. -/
theorem legacyPayment_other :
    ∃ y, y ≠ legacyPayment.signed plainSignature ∧ decodeRawTx .checked (hexEncode y) =
      .ok { decodedPayment with txHash := keccak256 y } := by
  have hdecoded : decodeRawTx .checked (hexEncode (legacyPayment.signed plainSignature)) =
      .ok decodedPayment := by decide +kernel
  obtain ⟨y, hne, hy, -⟩ := encoding_not_canonical .checked hdecoded
  exact ⟨y, hne, hy⟩

end

end EthTx

end ZenoChain
