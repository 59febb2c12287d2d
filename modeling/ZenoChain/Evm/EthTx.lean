/-
# Raw Ethereum transactions

`decode_raw_tx` for the two kinds of raw transactions.  Hexadecimal error texts, the Keccak digest
and the recovery of keys from signatures are third-party code, given by the class `EthLibrary`.

The decoder comes back with a transaction or an error as long as no header that it reads declares a
length that leads out of the words.
-/
import ZenoChain.Evm.RlpCodec
import ZenoChain.Execution.Transparent

namespace ZenoChain

/-- The third-party code behind the decoder. -/
class EthLibrary where
  /-- The text of the error for characters that are not pairs of hexadecimal digits. -/
  hexError : List Char → String
  keccak256 : Bytes → Hash32
  /-- Takes the 64 bytes of a signature. -/
  checkSignature : Bytes → Except String Unit
  /-- The coordinates of the key that has signed a digest. -/
  recoverFromPrehash : Hash32 → Bytes → ℕ → Except String Bytes

/-- A decoded transaction with its recovered sender. -/
structure DecodedEthTx where
  sender : EvmAddress
  nonce : ℕ
  /-- Gas price (legacy) or max fee per gas (EIP-1559). -/
  gasPrice : ℕ
  gasLimit : ℕ
  /-- Recipient address (`none` for contract creation). -/
  recipient : Option EvmAddress
  value : ℕ
  data : Bytes
  chainId : ℕ
  /-- Transaction hash (keccak256 of the raw bytes). -/
  txHash : Hash32
deriving DecidableEq, Repr

namespace EthTx

open EthLibrary

/-! ## Hexadecimal digits -/

/-- The value of a hexadecimal digit. -/
def hexValue (c : Char) : Option ℕ :=
  if '0' ≤ c ∧ c ≤ '9' then some (c.toNat - '0'.toNat)
  else if 'a' ≤ c ∧ c ≤ 'f' then some (c.toNat - 'a'.toNat + 10)
  else if 'A' ≤ c ∧ c ≤ 'F' then some (c.toNat - 'A'.toNat + 10)
  else none

/-- The bytes of pairs of hexadecimal digits. -/
def hexDecode : List Char → Option Bytes
  | [] => some []
  | [_] => none
  | high :: low :: rest =>
    match hexValue high, hexValue low, hexDecode rest with
    | some h, some l, some bytes => some (UInt8.ofNat (h * 16 + l) :: bytes)
    | _, _, _ => none

/-- The characters without a leading `0x`. -/
def stripHex : List Char → List Char
  | '0' :: 'x' :: rest => rest
  | chars => chars

/-! ## The decoder -/

/-- Fills up on the left to 32 bytes; of a longer string the first 32 bytes are taken. -/
def leftPad32 (bytes : Bytes) : Bytes := List.replicate (32 - bytes.length) 0 ++ bytes.take 32

/-- What is read of a transaction before the recovery of its sender: the bytes that are hashed for
it, the signature, and the fields. -/
structure Unrecovered where
  signingInput : Bytes
  r : Bytes
  s : Bytes
  recoveryV : ℕ
  nonce : ℕ
  gasPrice : ℕ
  gasLimit : ℕ
  recipient : Option EvmAddress
  value : ℕ
  data : Bytes
  chainId : ℕ
deriving DecidableEq, Repr

/-- The chain id of a legacy transaction; zero before EIP-155. -/
def legacyChainId (v : ℕ) : ℕ := if 35 ≤ v then (v - 35) / 2 else 0

/-- Reads the fields of a legacy transaction. -/
def readLegacy : List Bytes → Outcome String Unrecovered
  | [nonce, gasPrice, gasLimit, recipient, value, data, v, r, s] =>
    let chainId := legacyChainId (rlpToU64 v)
    .ok
      { signingInput := rlpEncodeList
          [nonce, gasPrice, gasLimit, recipient, value, data, rlpFromU64 chainId, [], []]
        r, s
        recoveryV :=
          (if 35 ≤ rlpToU64 v then rlpToU64 v - 35 - 2 * chainId else rlpToU64 v - 27) % 256
        nonce := rlpToU64 nonce
        gasPrice := rlpToU128 gasPrice
        gasLimit := rlpToU64 gasLimit
        recipient := rlpToAddress recipient
        value := rlpToU128 value
        data, chainId }
  | items => .error ("legacy tx must have 9 RLP fields, got " ++ toString items.length)

/-- Reads the fields of an EIP-1559 transaction. -/
def readEip1559 : List Bytes → Outcome String Unrecovered
  | [chainId, nonce, maxPriorityFee, maxFeePerGas, gasLimit, recipient, value, data, accessList, v, r, s] =>
    .ok
      { signingInput := 0x02 :: rlpEncodeList
          [chainId, nonce, maxPriorityFee, maxFeePerGas, gasLimit, recipient, value, data, accessList]
        r, s
        recoveryV := rlpToU64 v % 256
        nonce := rlpToU64 nonce
        gasPrice := rlpToU128 maxFeePerGas
        gasLimit := rlpToU64 gasLimit
        recipient := rlpToAddress recipient
        value := rlpToU128 value
        data
        chainId := rlpToU64 chainId }
  | items => .error ("EIP-1559 tx must have 12 RLP fields, got " ++ toString items.length)

section

variable [EthLibrary]

/-- The address of a key: the last twenty bytes of its digest. -/
def ethAddress (key : Bytes) : EvmAddress := (keccak256 key).setWidth 160

/-- Recovers the sender of a signed digest. -/
def recoverSender (signingHash : Hash32) (r s : Bytes) (v : ℕ) : Outcome String EvmAddress :=
  let signature := leftPad32 r ++ leftPad32 s
  match checkSignature signature with
  | .error e => .error ("invalid ECDSA signature: " ++ e)
  | .ok _ =>
    if 3 < v then .error ("invalid recovery id: " ++ toString v)
    else match recoverFromPrehash signingHash signature v with
      | .error e => .error ("ECDSA recovery failed: " ++ e)
      | .ok key => .ok (ethAddress key)

/-- Completes a transaction by its recovered sender. -/
def Unrecovered.recover (u : Unrecovered) (txHash : Hash32) : Outcome String DecodedEthTx := do
  let sender ← recoverSender (keccak256 u.signingInput) u.r u.s u.recoveryV
  return { u with sender, txHash }

def decodeLegacy (build : Build) (raw : Bytes) (txHash : Hash32) : Outcome String DecodedEthTx := do
  let items ← rlpDecodeList build raw
  let u ← readLegacy items
  u.recover txHash

/-- The list of an EIP-1559 transaction stands behind its type byte. -/
def decodeEip1559 (build : Build) (raw : Bytes) (txHash : Hash32) : Outcome String DecodedEthTx := do
  let items ← rlpDecodeList build (raw.drop 1)
  let u ← readEip1559 items
  u.recover txHash

/-- Decodes the bytes of a transaction. -/
def decodeRaw (build : Build) (raw : Bytes) : Outcome String DecodedEthTx :=
  match raw with
  | [] => .error "empty transaction"
  | first :: _ =>
    let txHash := keccak256 raw
    if first = 0x02 then decodeEip1559 build raw txHash else decodeLegacy build raw txHash

/-- Decodes a hex-encoded raw transaction and recovers its sender. -/
def decodeRawTx (build : Build) (rawHex : String) : Outcome String DecodedEthTx :=
  let digits := stripHex rawHex.toList
  match hexDecode digits with
  | none => .error ("invalid hex: " ++ hexError digits)
  | some raw => decodeRaw build raw

end

/-! ## What is read before the recovery -/

/-- The transaction is of type 2. -/
def IsEip1559 (raw : Bytes) : Prop := raw.head? = some 0x02

instance : DecidablePred IsEip1559 := fun raw => inferInstanceAs (Decidable (raw.head? = some 0x02))

/-- The list of a transaction. -/
def listOf (raw : Bytes) : Bytes := if IsEip1559 raw then raw.drop 1 else raw

/-- Reads a transaction up to the recovery. -/
def readRaw (build : Build) (raw : Bytes) : Outcome String Unrecovered := do
  let items ← rlpDecodeList build (listOf raw)
  if IsEip1559 raw then readEip1559 items else readLegacy items

variable [EthLibrary] {raw : Bytes}

lemma decodeRaw_eq (build : Build) (hne : raw ≠ []) :
    decodeRaw build raw = readRaw build raw >>= fun u => u.recover (keccak256 raw) := by
  cases raw with
  | nil => exact absurd rfl hne
  | cons first rest =>
    rw [decodeRaw, readRaw, listOf]
    by_cases hfirst : first = 0x02
    · have htype : IsEip1559 (first :: rest) := congrArg some hfirst
      rw [if_pos hfirst, if_pos htype, decodeEip1559]
      rcases rlpDecodeList build ((first :: rest).drop 1) with items | e | _
      · simp only [Outcome.ok_bind, if_pos htype]
      · rfl
      · rfl
    · have htype : ¬ IsEip1559 (first :: rest) := fun h => hfirst (Option.some.inj h)
      rw [if_neg hfirst, if_neg htype, decodeLegacy]
      rcases rlpDecodeList build (first :: rest) with items | e | _
      · simp only [Outcome.ok_bind, if_neg htype]
      · rfl
      · rfl

lemma returns_recover (u : Unrecovered) (txHash : Hash32) : (u.recover txHash).Returns := by
  rw [Unrecovered.recover, Outcome.returns_bind_iff]
  refine ⟨?_, fun _ _ => Outcome.returns_ok _⟩
  rw [recoverSender]
  split
  · exact Outcome.returns_error _
  · split
    · exact Outcome.returns_error _
    · split
      · exact Outcome.returns_error _
      · exact Outcome.returns_ok _

omit [EthLibrary] in
lemma returns_readLegacy (items : List Bytes) : (readLegacy items).Returns := by
  unfold readLegacy
  split
  · exact Outcome.returns_ok _
  · exact Outcome.returns_error _

omit [EthLibrary] in
lemma returns_readEip1559 (items : List Bytes) : (readEip1559 items).Returns := by
  unfold readEip1559
  split
  · exact Outcome.returns_ok _
  · exact Outcome.returns_error _

/-- The decoder comes back exactly if its list is decoded. -/
lemma decodeRaw_returns_iff (build : Build) (hne : raw ≠ []) :
    (decodeRaw build raw).Returns ↔ (rlpDecodeList build (listOf raw)).Returns := by
  rw [decodeRaw_eq build hne, readRaw, Outcome.returns_bind_iff, Outcome.returns_bind_iff]
  constructor
  · exact fun h => h.1.1
  · refine fun h => ⟨⟨h, fun items _ => ?_⟩, fun u _ => returns_recover u _⟩
    split
    · exact returns_readEip1559 items
    · exact returns_readLegacy items

/-! ## Declared lengths -/

omit [EthLibrary]

/-- No header that is read for a list declares a length that leads out of the words. -/
def ModestList (data : Bytes) : Prop :=
  ∀ h, Rlp.head data = some h → h.isList = true →
    h.total < 2 ^ 64 ∧ (h.total ≤ data.length → Modest (h.payload data))

lemma rlpDecodeList_returns_iff (data : Bytes) :
    ((rlpDecodeList .checked data).Returns ↔ ModestList data) ∧
      (ModestList data → ∀ build, rlpDecodeList build data = rlpDecodeList .checked data) := by
  rcases eq_or_ne data [] with rfl | hne
  · exact ⟨iff_of_true (Outcome.returns_error _) fun h hh => (by cases hh), fun _ _ => rfl⟩
  · obtain ⟨e, e', heq⟩ := rlpListPayload_eq hne
    simp only [rlpDecodeList, if_neg hne, heq]
    rcases hh : Rlp.head data with _ | h
    · have hmodest : ModestList data := fun h hh' => by
        rw [hh] at hh'
        cases hh'
      exact ⟨iff_of_true (Outcome.returns_error _) hmodest, fun _ _ => rfl⟩
    · have hiff : ModestList data ↔ (h.isList = true → h.total < 2 ^ 64 ∧
          (h.total ≤ data.length → Modest (h.payload data))) := by
        rw [ModestList, hh]
        exact ⟨fun hall => hall h rfl, fun hboth h' hh' => by cases hh'; exact hboth⟩
      rw [hiff]
      dsimp only
      by_cases hlist : h.isList = true
      · simp only [if_pos hlist]
        by_cases hfits : h.total < 2 ^ 64
        · by_cases hle : h.total ≤ data.length
          · obtain ⟨hreturns, hsame⟩ := rlpItems_returns_iff (le_refl (h.payload data).length)
            simp only [takePayload_ok hfits hle, Outcome.ok_bind]
            exact ⟨⟨fun hr _ => ⟨hfits, fun _ => hreturns.mp hr⟩,
              fun hall => hreturns.mpr ((hall hlist).2 hle)⟩,
              fun hall build => hsame ((hall hlist).2 hle) build⟩
          · have hlt := Nat.lt_of_not_le hle
            rw [takePayload_truncated hfits hlt]
            refine ⟨iff_of_true (Outcome.returns_error _) fun _ => ⟨hfits, fun h' => absurd h' hle⟩,
              fun _ build => ?_⟩
            rw [takePayload_truncated hfits hlt]
            rfl
        · rw [takePayload_overflow hh hfits]
          exact ⟨iff_of_false Outcome.not_returns_panic fun hall => hfits (hall hlist).1,
            fun hall => absurd (hall hlist).1 hfits⟩
      · simp only [if_neg hlist]
        exact ⟨iff_of_true (Outcome.returns_error _) fun h' => absurd h' hlist, fun _ _ => rfl⟩

/-- **When the decoder comes back.**  For every string, a build with overflow checks returns a
transaction or an error exactly if no header that is read declares a length that leads out of the
words; a build without them then returns the same. -/
theorem decodeRawTx_returns_iff [EthLibrary] (rawHex : String) :
    ((decodeRawTx .checked rawHex).Returns ↔
      ∀ raw, hexDecode (stripHex rawHex.toList) = some raw → ModestList (listOf raw)) ∧
    ((∀ raw, hexDecode (stripHex rawHex.toList) = some raw → ModestList (listOf raw)) →
      ∀ build, decodeRawTx build rawHex = decodeRawTx .checked rawHex) := by
  simp only [decodeRawTx]
  rcases hexDecode (stripHex rawHex.toList) with _ | raw
  · exact ⟨iff_of_true (Outcome.returns_error _) nofun, fun _ _ => rfl⟩
  · dsimp only
    simp only [Option.some.injEq, forall_eq']
    rcases eq_or_ne raw [] with rfl | hne
    · have hmodest : ModestList (listOf []) := fun h hh => by cases hh
      exact ⟨iff_of_true (Outcome.returns_error _) hmodest, fun _ _ => rfl⟩
    · obtain ⟨hreturns, hsame⟩ := rlpDecodeList_returns_iff (listOf raw)
      refine ⟨(decodeRaw_returns_iff .checked hne).trans hreturns, fun hmodest build => ?_⟩
      rw [decodeRaw_eq build hne, decodeRaw_eq .checked hne, readRaw, readRaw, hsame hmodest build]

/-! ## Lengths that wrap around -/

end EthTx

namespace Transparent

/-- The digests of the transparent instance; the second half of a signature is the key that has
made it. -/
scoped instance ethLibrary : EthLibrary :=
  { hexError := fun _ => "not hexadecimal"
    keccak256 := hashing.hashBytes
    checkSignature := fun _ => .ok ()
    recoverFromPrehash := fun _ signature _ => .ok (signature.drop 32) }

end Transparent

namespace EthTx

section

open Transparent

/-- A list of one string with a length of eight bytes, the greatest there is. -/
def longestString : String := "0xc9bfffffffffffffffff"

/-- A list of one list whose length makes up, with the header, exactly `2 ^ 64`. -/
def endlessList : String := "0xc9fffffffffffffffff7"

/-- A string of the greatest length ends before it starts, in both builds; a list that takes up
nothing is read over and over. -/
theorem longLengths_not_returning :
    ¬ (decodeRawTx .checked longestString).Returns ∧ ¬ (decodeRawTx .wrapping longestString).Returns ∧
      ¬ (decodeRawTx .checked endlessList).Returns ∧
      ¬ (decodeRawTx .wrapping endlessList).Returns := by
  decide +kernel

end

end EthTx

end ZenoChain
