/-
# The flat database

The RocksDB backend keeps everything in one map from byte strings to byte strings.  A key is the
name of a namespace, a colon and a suffix; an encoded value is represented by the value together
with the type at which it was encoded, so that decoding it at that type gives it back and decoding
it at another type fails.
-/
import ZenoChain.Base.Outcome
import ZenoChain.Base.Table
import ZenoChain.Chain.Codec

namespace ZenoChain

open Codec

/-- Storage errors. -/
inductive StorageError
  | codec (message : String)
  | backend (message : String)
deriving DecidableEq, Repr

/-- EIP-1559 style dynamic gas pricing state. -/
structure GasPricingState where
  baseFee : ℕ := 0
  lastBlockGasUsed : ℕ := 0
deriving DecidableEq, Repr

/-- An encoded value. -/
inductive RocksValue
  | genesis (value : Genesis)
  | account (value : Account)
  | evmAccount (value : EvmAccountState)
  | block (value : FinalizedBlock)
  | receipt (value : Receipt)
  | snapshot (value : ConsensusSnapshot)
  | walEntry (value : ConsensusWalEntry)
  | index (value : ℕ)
  | staking (value : StakingState)
  | governance (value : GovernanceState)
  | transition (value : EpochTransition)
  | slashing (value : SlashingProtection)
  | gasPricing (value : GasPricingState)
  | logs (value : List EvmLog)

/-- A type whose values are encoded and decoded. -/
class Stored (α : Type) where
  encode : α → RocksValue
  decode : RocksValue → Option α
  decode_encode : ∀ a, decode (encode a) = some a

export Stored (encode decode)

instance : Stored Genesis := ⟨.genesis, fun | .genesis v => some v | _ => none, fun _ => rfl⟩
instance : Stored Account := ⟨.account, fun | .account v => some v | _ => none, fun _ => rfl⟩
instance : Stored EvmAccountState :=
  ⟨.evmAccount, fun | .evmAccount v => some v | _ => none, fun _ => rfl⟩
instance : Stored FinalizedBlock := ⟨.block, fun | .block v => some v | _ => none, fun _ => rfl⟩
instance : Stored Receipt := ⟨.receipt, fun | .receipt v => some v | _ => none, fun _ => rfl⟩
instance : Stored ConsensusSnapshot :=
  ⟨.snapshot, fun | .snapshot v => some v | _ => none, fun _ => rfl⟩
instance : Stored ConsensusWalEntry :=
  ⟨.walEntry, fun | .walEntry v => some v | _ => none, fun _ => rfl⟩
instance : Stored ℕ := ⟨.index, fun | .index v => some v | _ => none, fun _ => rfl⟩
instance : Stored StakingState := ⟨.staking, fun | .staking v => some v | _ => none, fun _ => rfl⟩
instance : Stored GovernanceState :=
  ⟨.governance, fun | .governance v => some v | _ => none, fun _ => rfl⟩
instance : Stored EpochTransition :=
  ⟨.transition, fun | .transition v => some v | _ => none, fun _ => rfl⟩
instance : Stored SlashingProtection :=
  ⟨.slashing, fun | .slashing v => some v | _ => none, fun _ => rfl⟩
instance : Stored GasPricingState :=
  ⟨.gasPricing, fun | .gasPricing v => some v | _ => none, fun _ => rfl⟩
instance : Stored (List EvmLog) := ⟨.logs, fun | .logs v => some v | _ => none, fun _ => rfl⟩

/-- Encodings at one type are different for different values. -/
lemma encode_inj {α : Type} [Stored α] {a b : α} (h : encode a = encode b) : a = b := by
  have hdecode := congrArg (decode (α := α)) h
  rw [Stored.decode_encode, Stored.decode_encode] at hdecode
  exact Option.some.inj hdecode

/-! ## Keys -/

/-- The namespaces of the keys. -/
inductive Namespace
  | acct | evmAcct | blockH | blockB | rcpt | consensusWal | epoch | slashProt | evmLogs | metadata
deriving DecidableEq, Repr

/-- The name of a namespace. -/
def Namespace.text : Namespace → String
  | acct => "acct"
  | evmAcct => "evm-acct"
  | blockH => "block-h"
  | blockB => "block-b"
  | rcpt => "rcpt"
  | consensusWal => "consensus-wal"
  | epoch => "epoch"
  | slashProt => "slash-prot"
  | evmLogs => "evm-logs"
  | metadata => "meta"

/-- The values that are kept under one fixed key. -/
inductive MetaName
  | genesis | latest | consensus | consensusWalNext | staking | governance | epochLatest | gasPricing
deriving DecidableEq, Repr

/-- The suffix of a fixed key. -/
def MetaName.text : MetaName → String
  | genesis => "genesis"
  | latest => "latest"
  | consensus => "consensus"
  | consensusWalNext => "consensus-wal-next"
  | staking => "staking"
  | governance => "governance"
  | epochLatest => "epoch-latest"
  | gasPricing => "gas-pricing"

/-- The bytes of a text. -/
def utf8 (text : String) : Bytes := text.toUTF8.toList

/-- The prefix of the keys of a namespace. -/
def Namespace.start (n : Namespace) : Bytes := utf8 n.text ++ [58]

/-- A key of a namespace. -/
def key (n : Namespace) (suffix : Bytes) : Bytes := n.start ++ suffix

/-- A fixed key. -/
def metaKey (name : MetaName) : Bytes := key .metadata (utf8 name.text)

/-- The keys that the store uses. -/
inductive RocksKey
  | acct (address : Address)
  | evmAcct (address : EvmAddress)
  | blockH (height : ℕ)
  | blockB (hash : Hash32)
  | rcpt (txHash : Hash32)
  | consensusWal (index : ℕ)
  | epoch (number : ℕ)
  | slashProt (address : Address)
  | evmLogs (height : ℕ)
  | metadata (name : MetaName)
deriving DecidableEq

namespace RocksKey

/-- The namespace of a key. -/
def space : RocksKey → Namespace
  | acct _ => .acct
  | evmAcct _ => .evmAcct
  | blockH _ => .blockH
  | blockB _ => .blockB
  | rcpt _ => .rcpt
  | consensusWal _ => .consensusWal
  | epoch _ => .epoch
  | slashProt _ => .slashProt
  | evmLogs _ => .evmLogs
  | metadata _ => .metadata

/-- The suffix of a key. -/
def suffix : RocksKey → Bytes
  | acct address => array32 address
  | evmAcct address => array20 address
  | blockH height => u64 height
  | blockB hash => array32 hash
  | rcpt txHash => array32 txHash
  | consensusWal index => u64 index
  | epoch number => u64 number
  | slashProt address => array32 address
  | evmLogs height => u64 height
  | metadata name => utf8 name.text

/-- The bytes of a key. -/
def bytes (k : RocksKey) : Bytes := key k.space k.suffix

/-- The number in a key, if there is one, is a word of 64 bits. -/
def Fits : RocksKey → Prop
  | blockH n | consensusWal n | epoch n | evmLogs n => n < 2 ^ 64
  | _ => True

lemma fits_blockH {n : ℕ} (h : n < 2 ^ 64) : (blockH n).Fits := by rwa [Fits]

lemma fits_consensusWal {n : ℕ} (h : n < 2 ^ 64) : (consensusWal n).Fits := by rwa [Fits]

lemma fits_epoch {n : ℕ} (h : n < 2 ^ 64) : (epoch n).Fits := by rwa [Fits]

lemma fits_evmLogs {n : ℕ} (h : n < 2 ^ 64) : (evmLogs n).Fits := by rwa [Fits]

end RocksKey

/-- The colon ends the name of a namespace. -/
lemma colon_notMem_text (n : Namespace) : (58 : UInt8) ∉ utf8 n.text := by
  cases n <;> decide +kernel

lemma text_inj {n n' : Namespace} (h : utf8 n.text = utf8 n'.text) : n = n' := by
  cases n <;> cases n' <;> first | rfl | exact absurd h (by decide +kernel)

lemma metaName_inj {n n' : MetaName} (h : utf8 n.text = utf8 n'.text) : n = n' := by
  cases n <;> cases n' <;> first | rfl | exact absurd h (by decide +kernel)

lemma key_inj {n n' : Namespace} {s s' : Bytes} (h : key n s = key n' s') : n = n' ∧ s = s' := by
  simp only [key, Namespace.start, List.append_assoc, List.cons_append, List.nil_append] at h
  obtain ⟨hname, hsuffix⟩ := append_separator_inj (colon_notMem_text n) (colon_notMem_text n') h
  exact ⟨text_inj hname, hsuffix⟩

lemma u64_inj {n n' : ℕ} (hn : n < 2 ^ 64) (hn' : n' < 2 ^ 64) (h : u64 n = u64 n') : n = n' :=
  leBytes_inj h (by omega) (by omega)

/-- **The keys are disjoint**: each is built in one way only. -/
lemma RocksKey.bytes_inj {k k' : RocksKey} (hk : k.Fits) (hk' : k'.Fits) (h : k.bytes = k'.bytes) :
    k = k' := by
  obtain ⟨hspace, hsuffix⟩ := key_inj h
  cases k <;> cases k' <;> try cases hspace
  case acct => exact congrArg _ (array32_inj hsuffix)
  case evmAcct => exact congrArg _ (array20_inj hsuffix)
  case blockH => exact congrArg _ (u64_inj hk hk' hsuffix)
  case blockB => exact congrArg _ (array32_inj hsuffix)
  case rcpt => exact congrArg _ (array32_inj hsuffix)
  case consensusWal => exact congrArg _ (u64_inj hk hk' hsuffix)
  case epoch => exact congrArg _ (u64_inj hk hk' hsuffix)
  case slashProt => exact congrArg _ (array32_inj hsuffix)
  case evmLogs => exact congrArg _ (u64_inj hk hk' hsuffix)
  case metadata => exact congrArg _ (metaName_inj hsuffix)

/-- A key starts with the prefix of a namespace exactly if it is one of the namespace. -/
lemma RocksKey.isPrefix_iff (n : Namespace) (k : RocksKey) :
    n.start.isPrefixOf k.bytes = true ↔ k.space = n := by
  rw [List.isPrefixOf_iff_prefix]
  constructor
  · rintro ⟨s, hs⟩
    exact (key_inj (n := n) (s := s) hs).1.symm
  · rintro rfl
    exact ⟨k.suffix, rfl⟩

/-! ## The store -/

/-- RocksDB-backed store. -/
structure RocksStore where
  db : BTreeMap Bytes RocksValue := ∅

/-- An operation of a write batch. -/
inductive BatchOp
  | put (key : Bytes) (value : RocksValue)
  | delete (key : Bytes)

namespace RocksStore

/-- The value at a key, decoded. -/
def getValue (α : Type) [Stored α] (r : RocksStore) (k : Bytes) :
    Outcome StorageError (Option α) :=
  match r.db[k]? with
  | none => .ok none
  | some value =>
    match decode value with
    | some a => .ok (some a)
    | none => .error (.codec "decode failed")

/-- Encodes and writes a value. -/
def putValue {α : Type} [Stored α] (r : RocksStore) (k : Bytes) (value : α) : RocksStore :=
  ⟨r.db.insert k (encode value)⟩

/-- One operation of a batch. -/
def batchOp (r : RocksStore) : BatchOp → RocksStore
  | .put k value => ⟨r.db.insert k value⟩
  | .delete k => ⟨r.db.erase k⟩

/-- Applies a write batch. -/
def write (r : RocksStore) (batch : List BatchOp) : RocksStore := batch.foldl batchOp r

/-- Iterates over all entries from the start and collects those of a namespace. -/
def collect {κ α : Type} [Ord κ] [Std.TransOrd κ] [Stored α] (r : RocksStore) (n : Namespace)
    (readKey : Bytes → Outcome StorageError κ) : Outcome StorageError (BTreeMap κ α) :=
  r.db.toList.foldlM (fun out e => if n.start.isPrefixOf e.1 then do
      let k ← readKey e.1
      let value ← Outcome.ofOption (.codec "decode failed") (decode e.2)
      return out.insert k value
    else return out) ∅

/-- The bytes of a key from one position to another; the source indexes with this range. -/
def slice (b : Bytes) (i j : ℕ) : Outcome StorageError Bytes :=
  if j ≤ b.length then .ok ((b.drop i).take (j - i)) else .panic

/-! ## What stands under the keys of the store -/

/-- The value under a key. -/
def read (r : RocksStore) (k : RocksKey) : Option RocksValue := r.db[k.bytes]?

/-- A value is of the type that belongs to the key. -/
def Holds : RocksKey → RocksValue → Prop
  | .acct _, .account _ => True
  | .evmAcct _, .evmAccount _ => True
  | .blockH _, .block _ => True
  | .blockB _, .block _ => True
  | .rcpt _, .receipt _ => True
  | .consensusWal _, .walEntry _ => True
  | .epoch _, .transition _ => True
  | .slashProt _, .slashing _ => True
  | .evmLogs _, .logs _ => True
  | .metadata .genesis, .genesis _ => True
  | .metadata .latest, .block _ => True
  | .metadata .consensus, .snapshot _ => True
  | .metadata .consensusWalNext, .index n => n < 2 ^ 64
  | .metadata .staking, .staking _ => True
  | .metadata .governance, .governance _ => True
  | .metadata .epochLatest, .transition _ => True
  | .metadata .gasPricing, .gasPricing _ => True
  | _, _ => False

/-- All keys are keys of the store, with values of the right types. -/
def WellFormed (r : RocksStore) : Prop :=
  ∀ (b : Bytes) (value : RocksValue), r.db[b]? = some value →
    ∃ k : RocksKey, k.Fits ∧ k.bytes = b ∧ Holds k value

variable {r : RocksStore} {k k' : RocksKey} {value : RocksValue}

lemma wellFormed_empty : WellFormed {} := fun b value h => by simp at h

lemma WellFormed.insert (h : r.WellFormed) (hk : k.Fits) (hvalue : Holds k value) :
    WellFormed ⟨r.db.insert k.bytes value⟩ := by
  intro b w hw
  rw [Table.getElem?_insert] at hw
  split at hw
  · rename_i hb
    obtain rfl := Option.some.inj hw
    exact ⟨k, hk, hb.symm, hvalue⟩
  · exact h b w hw

lemma WellFormed.erase (h : r.WellFormed) (b : Bytes) : WellFormed ⟨r.db.erase b⟩ := by
  intro c w hw
  rw [Table.getElem?_erase] at hw
  split at hw
  · cases hw
  · exact h c w hw

lemma read_insert (hk : k.Fits) (hk' : k'.Fits) :
    read ⟨r.db.insert k.bytes value⟩ k' = if k' = k then some value else r.read k' := by
  rw [read, Table.getElem?_insert]
  by_cases h : k' = k
  · rw [if_pos h, if_pos (congrArg RocksKey.bytes h)]
  · rw [if_neg h, if_neg fun hc => h (RocksKey.bytes_inj hk' hk hc), read]

lemma read_erase (hk : k.Fits) (hk' : k'.Fits) :
    read ⟨r.db.erase k.bytes⟩ k' = if k' = k then none else r.read k' := by
  rw [read, Table.getElem?_erase]
  by_cases h : k' = k
  · rw [if_pos h, if_pos (congrArg RocksKey.bytes h)]
  · rw [if_neg h, if_neg fun hc => h (RocksKey.bytes_inj hk' hk hc), read]

lemma getValue_of_read {α : Type} [Stored α] {a : Option α} (h : r.read k = a.map encode) :
    r.getValue α k.bytes = .ok a := by
  rw [read] at h
  rw [getValue, h]
  cases a with
  | none => rfl
  | some a => simp only [Option.map_some, Stored.decode_encode]

/-! ## Iterating over a namespace -/

section Collect

variable {κ α : Type} [Ord κ] [Std.TransOrd κ] [Stored α]

/-- What an entry contributes to the collection. -/
def collected (n : Namespace) (readKey : Bytes → Outcome StorageError κ) (e : Bytes × RocksValue) :
    Option (κ × α) :=
  if n.start.isPrefixOf e.1 then
    match readKey e.1, decode e.2 with
    | .ok k, some value => some (k, value)
    | _, _ => none
  else none

variable [Std.LawfulEqOrd κ] [DecidableEq κ] {n : Namespace} {mk : κ → RocksKey}
  {readKey : Bytes → Outcome StorageError κ}

/-- **Iteration over a namespace** returns the table of what stands under its keys. -/
theorem collect_ok (h : r.WellFormed) (hspace : ∀ a, (mk a).space = n)
    (hmk : ∀ k : RocksKey, k.space = n → ∃ a, mk a = k)
    (hread : ∀ a, (mk a).Fits → readKey (mk a).bytes = .ok a)
    (hvalue : ∀ a w, Holds (mk a) w → ∃ x : α, w = encode x) :
    ∃ t : BTreeMap κ α, r.collect n readKey = .ok t ∧
      (∀ a, (mk a).Fits → t[a]?.map encode = r.read (mk a)) ∧
      ∀ a, ¬ (mk a).Fits → t[a]? = none := by
  -- Each entry of the namespace decodes to one entry of the table.
  have hentry : ∀ e ∈ r.db.toList, n.start.isPrefixOf e.1 = true →
      ∃ a x, (mk a).Fits ∧ (mk a).bytes = e.1 ∧ e.2 = encode (x : α) := by
    intro e he hprefix
    obtain ⟨k, hfits, hbytes, hholds⟩ := h e.1 e.2 (Table.mem_toList_iff.mp he)
    rw [← hbytes, RocksKey.isPrefix_iff] at hprefix
    obtain ⟨a, rfl⟩ := hmk k hprefix
    obtain ⟨x, hx⟩ := hvalue a e.2 hholds
    exact ⟨a, x, hfits, hbytes, hx⟩
  have hmem : ∀ a x, (a, x) ∈ r.db.toList.filterMap (collected (α := α) n readKey) ↔
      (mk a).Fits ∧ r.read (mk a) = some (encode x) := by
    intro a x
    rw [List.mem_filterMap]
    constructor
    · rintro ⟨e, he, hcollected⟩
      rw [collected] at hcollected
      split at hcollected
      · rename_i hprefix
        obtain ⟨b, y, hfits, hbytes, hy⟩ := hentry e he hprefix
        simp only [← hbytes, hread b hfits, hy, Stored.decode_encode, Option.some.injEq,
          Prod.mk.injEq] at hcollected
        obtain ⟨rfl, rfl⟩ := hcollected
        refine ⟨hfits, ?_⟩
        rw [read, hbytes, Table.mem_toList_iff.mp he, hy]
      · cases hcollected
    · rintro ⟨hfits, hx⟩
      refine ⟨((mk a).bytes, encode x), Table.mem_toList_iff.mpr hx, ?_⟩
      have hprefix : n.start.isPrefixOf (mk a).bytes = true :=
        (RocksKey.isPrefix_iff n (mk a)).mpr (hspace a)
      simp only [collected, if_pos hprefix, hread a hfits, Stored.decode_encode]
  have hfold : ∀ (l : List (Bytes × RocksValue)) (out : BTreeMap κ α),
      (∀ e ∈ l, n.start.isPrefixOf e.1 = true →
        ∃ a x, (mk a).Fits ∧ (mk a).bytes = e.1 ∧ e.2 = encode (x : α)) →
      l.foldlM (fun out e => if n.start.isPrefixOf e.1 then do
          let k ← readKey e.1
          let value ← Outcome.ofOption (.codec "decode failed") (decode e.2)
          return out.insert k value
        else return out) out =
        Outcome.ok (Table.insertAll out (l.filterMap (collected n readKey))) := by
    intro l
    induction l with
    | nil => exact fun out _ => rfl
    | cons e l ih =>
      intro out hall
      obtain ⟨he, hrest⟩ := List.forall_mem_cons.mp hall
      rw [List.foldlM_cons]
      by_cases hprefix : n.start.isPrefixOf e.1 = true
      · obtain ⟨a, x, hfits, hbytes, hx⟩ := he hprefix
        have hcollected : collected n readKey e = some (a, x) := by
          rw [collected, if_pos hprefix]
          simp only [← hbytes, hread a hfits, hx, Stored.decode_encode]
        rw [if_pos hprefix, ← hbytes, hread a hfits, hx, List.filterMap_cons_some hcollected]
        simp only [Outcome.ok_bind, Stored.decode_encode, Outcome.ofOption, Outcome.pure_eq]
        exact ih _ hrest
      · have hcollected : collected (α := α) n readKey e = none := by
          rw [collected, if_neg hprefix]
        rw [if_neg hprefix, List.filterMap_cons_none hcollected]
        exact ih _ hrest
  refine ⟨_, hfold _ ∅ hentry, fun a hfits => ?_, fun a hfits => ?_⟩
  · have hiff : ∀ x : α, (Table.insertAll (∅ : BTreeMap κ α)
        (r.db.toList.filterMap (collected n readKey)))[a]? = some x ↔
          r.read (mk a) = some (encode x) := by
      intro x
      rw [Table.getElem?_insertAll_empty_iff, hmem a x, and_iff_right hfits]
      intro y hx hy
      have heq := ((hmem a x).mp hx).2.symm.trans ((hmem a y).mp hy).2
      exact encode_inj (Option.some.inj heq)
    rcases hw : r.read (mk a) with _ | w
    · rw [Option.map_eq_none_iff]
      by_contra hne
      obtain ⟨x, hx⟩ := Option.ne_none_iff_exists'.mp hne
      rw [(hiff x).mp hx] at hw
      cases hw
    · obtain ⟨k, hk, hbytes, hholds⟩ := h _ w hw
      rw [RocksKey.bytes_inj hk hfits hbytes] at hholds
      obtain ⟨x, rfl⟩ := hvalue a w hholds
      rw [(hiff x).mpr hw, Option.map_some]
  · by_contra hne
    obtain ⟨x, hx⟩ := Option.ne_none_iff_exists'.mp hne
    have hin := (Table.mem_of_getElem?_insertAll hx).resolve_right (by simp)
    exact hfits ((hmem a x).mp hin).1

end Collect

end RocksStore

end ZenoChain
