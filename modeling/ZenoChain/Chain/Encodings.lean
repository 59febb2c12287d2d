/-
# What an encoding tells

Every field of a record either has a fixed width or says how long it is, so the canonical
encoding delimits itself as long as the numbers fit their machine types.  Hence the bytes of
a transaction or a receipt, which are what is hashed, determine it.
-/
import ZenoChain.Base.SelfDelimiting
import ZenoChain.Chain.MlDsa

namespace ZenoChain

namespace Codec

lemma delimits_leBytes (k : ℕ) : Delimits (· < 256 ^ k) (leBytes k) :=
  .of_length (length_leBytes k) fun _ _ ha hb h => leBytes_inj h ha hb

lemma delimits_u32 : Delimits (· < 2 ^ 32) u32 := delimits_leBytes 4

lemma delimits_u64 : Delimits (· < 2 ^ 64) u64 := delimits_leBytes 8

lemma delimits_u128 : Delimits (· < 2 ^ 128) u128 := delimits_leBytes 16

lemma delimits_array32 : Delimits (fun _ => True) array32 :=
  .of_length length_array32 fun _ _ _ _ h => array32_inj h

lemma delimits_array20 : Delimits (fun _ => True) array20 := by
  refine .of_length (n := 20) (fun v => ?_) fun v v' _ _ h => array20_inj h
  rw [array20, beBytes, List.length_reverse, length_leBytes]

lemma delimits_bytes : Delimits (fun b : Bytes => b.length < 2 ^ 64) bytes := by
  intro b c hb hc x y h
  rw [bytes, bytes, List.append_assoc, List.append_assoc] at h
  obtain ⟨hlength, h⟩ := delimits_u64 hb hc h
  exact List.append_inj h hlength

lemma delimits_str : Delimits (fun s : String => s.utf8ByteSize < 2 ^ 64) str := by
  intro s t hs ht x y h
  obtain rfl := str_append_inj hs ht h
  exact ⟨rfl, List.append_cancel_left h⟩

variable {α : Type} {p : α → Prop} {f : α → Bytes}

lemma delimits_seq (hf : Delimits p f) :
    Delimits (fun l : List α => l.length < 2 ^ 64 ∧ ∀ a ∈ l, p a) (seq f) := by
  intro l l' hl hl' x y h
  rw [seq, seq, List.append_assoc, List.append_assoc] at h
  obtain ⟨hlength, h⟩ := delimits_u64 hl.1 hl'.1 h
  exact hf.flatMap_inj hl.2 hl'.2 hlength h

lemma delimits_option (hf : Delimits p f) :
    Delimits (fun o : Option α => ∀ a ∈ o, p a) (option f) := by
  intro o o' ho ho' x y h
  match o, o' with
  | none, none => exact ⟨rfl, (List.cons.inj h).2⟩
  | none, some a' => cases (List.cons.inj h).1
  | some a, none => cases (List.cons.inj h).1
  | some a, some a' =>
    obtain ⟨hsome, h⟩ := hf (ho a rfl) (ho' a' rfl) (List.cons.inj h).2
    exact ⟨congrArg some hsome, h⟩

end Codec

open Codec

attribute [ext] EvmTransaction TransactionBody Transaction EvmLog EvmCallResult Receipt

/-! ## Transactions -/

/-- The payload fits its machine types. -/
structure EvmTransaction.Fits (t : EvmTransaction) : Prop where
  code : ∀ bytecode, t.kind = .create bytecode → bytecode.length < 2 ^ 64
  input : ∀ contract input, t.kind = .call contract input → input.length < 2 ^ 64
  value : t.value < 2 ^ 128
  gasLimit : t.gasLimit < 2 ^ 64
  gasPrice : t.gasPrice < 2 ^ 128

/-- The body fits its machine types. -/
structure TransactionBody.Fits (b : TransactionBody) : Prop where
  chainId : b.chainId.utf8ByteSize < 2 ^ 64
  amount : b.amount < 2 ^ 128
  nonce : b.nonce < 2 ^ 64
  fee : b.fee < 2 ^ 128
  evm : ∀ t ∈ b.evm, t.Fits
  memo : ∀ m ∈ b.memo, m.utf8ByteSize < 2 ^ 64
  validUntil : ∀ h ∈ b.validUntil, h < 2 ^ 64

/-- The transaction fits its machine types. -/
structure Transaction.Fits (t : Transaction) : Prop where
  body : t.body.Fits
  publicKey : t.publicKey.length < 2 ^ 64
  signature : t.signature.length < 2 ^ 64

lemma EvmTransaction.delimits_encode : Delimits EvmTransaction.Fits EvmTransaction.encode := by
  rintro ⟨kind, value, gasLimit, gasPrice⟩ ⟨kind', value', gasLimit', gasPrice'⟩ ht ht' x y h
  have hkind : kind = kind' ∧
      u128 value ++ (u64 gasLimit ++ (u128 gasPrice ++ x)) =
        u128 value' ++ (u64 gasLimit' ++ (u128 gasPrice' ++ y)) := by
    cases kind with
    | create bytecode =>
      cases kind' with
      | create bytecode' =>
        simp only [encode, List.append_assoc] at h
        obtain ⟨-, h⟩ := delimits_u32 (by decide) (by decide) h
        obtain ⟨hcode, h⟩ := delimits_bytes (ht.code _ rfl) (ht'.code _ rfl) h
        exact ⟨by rw [hcode], h⟩
      | call contract' input' =>
        simp only [encode, List.append_assoc] at h
        cases (delimits_u32 (by decide) (by decide) h).1
    | call contract input =>
      cases kind' with
      | create bytecode' =>
        simp only [encode, List.append_assoc] at h
        cases (delimits_u32 (by decide) (by decide) h).1
      | call contract' input' =>
        simp only [encode, List.append_assoc] at h
        obtain ⟨-, h⟩ := delimits_u32 (by decide) (by decide) h
        obtain ⟨hcontract, h⟩ := delimits_array20 trivial trivial h
        obtain ⟨hinput, h⟩ := delimits_bytes (ht.input _ _ rfl) (ht'.input _ _ rfl) h
        exact ⟨by rw [hcontract, hinput], h⟩
  obtain ⟨hkind, h⟩ := hkind
  obtain ⟨hvalue, h⟩ := delimits_u128 ht.value ht'.value h
  obtain ⟨hlimit, h⟩ := delimits_u64 ht.gasLimit ht'.gasLimit h
  obtain ⟨hprice, h⟩ := delimits_u128 ht.gasPrice ht'.gasPrice h
  exact ⟨EvmTransaction.ext hkind hvalue hlimit hprice, h⟩

lemma TransactionBody.delimits_encode : Delimits TransactionBody.Fits TransactionBody.encode := by
  intro b b' hb hb' x y h
  simp only [encode, List.append_assoc] at h
  obtain ⟨hchainId, h⟩ := delimits_str hb.chainId hb'.chainId h
  obtain ⟨hsender, h⟩ := delimits_array32 trivial trivial h
  obtain ⟨hrecipient, h⟩ := delimits_array32 trivial trivial h
  obtain ⟨hamount, h⟩ := delimits_u128 hb.amount hb'.amount h
  obtain ⟨hnonce, h⟩ := delimits_u64 hb.nonce hb'.nonce h
  obtain ⟨hfee, h⟩ := delimits_u128 hb.fee hb'.fee h
  obtain ⟨hevm, h⟩ := delimits_option EvmTransaction.delimits_encode hb.evm hb'.evm h
  obtain ⟨hmemo, h⟩ := delimits_option delimits_str hb.memo hb'.memo h
  obtain ⟨hvalidUntil, h⟩ := delimits_option delimits_u64 hb.validUntil hb'.validUntil h
  exact ⟨TransactionBody.ext hchainId hsender hrecipient hamount hnonce hfee hevm hmemo hvalidUntil, h⟩

lemma Transaction.delimits_encode : Delimits Transaction.Fits Transaction.encode := by
  intro t t' ht ht' x y h
  simp only [encode, List.append_assoc] at h
  obtain ⟨hbody, h⟩ := TransactionBody.delimits_encode ht.body ht'.body h
  obtain ⟨hkey, h⟩ := delimits_bytes ht.publicKey ht'.publicKey h
  obtain ⟨hsignature, h⟩ := delimits_bytes ht.signature ht'.signature h
  exact ⟨Transaction.ext hbody hkey hsignature, h⟩

/-- The two addresses alone take as many bytes as a pair of hashes, and there are more fields. -/
lemma Transaction.lt_length_encode (t : Transaction) : 64 < t.encode.length := by
  simp only [encode, TransactionBody.encode, str, bytes, u64, u128, List.length_append,
    length_leBytes, length_array32]
  omega

/-! ## Receipts -/

/-- The log fits its machine types. -/
structure EvmLog.Fits (l : EvmLog) : Prop where
  topics : l.topics.length < 2 ^ 64
  data : l.data.length < 2 ^ 64

/-- The result fits its machine types. -/
structure EvmCallResult.Fits (r : EvmCallResult) : Prop where
  output : r.output.length < 2 ^ 64
  gasUsed : r.gasUsed < 2 ^ 64
  logs : r.logs.length < 2 ^ 64 ∧ ∀ l ∈ r.logs, l.Fits

/-- The receipt fits its machine types. -/
structure Receipt.Fits (r : Receipt) : Prop where
  height : r.height < 2 ^ 64
  feeCharged : r.feeCharged < 2 ^ 128
  reason : ∀ reason, r.outcome = .rejected reason → reason.utf8ByteSize < 2 ^ 64
  evm : ∀ result ∈ r.evm, result.Fits

lemma EvmLog.delimits_encode : Delimits EvmLog.Fits EvmLog.encode := by
  intro l l' hl hl' x y h
  simp only [encode, List.append_assoc] at h
  obtain ⟨haddress, h⟩ := delimits_array20 trivial trivial h
  obtain ⟨htopics, h⟩ := delimits_seq delimits_array32 ⟨hl.topics, fun _ _ => trivial⟩
    ⟨hl'.topics, fun _ _ => trivial⟩ h
  obtain ⟨hdata, h⟩ := delimits_bytes hl.data hl'.data h
  exact ⟨EvmLog.ext haddress htopics hdata, h⟩

lemma EvmCallResult.delimits_encode : Delimits EvmCallResult.Fits EvmCallResult.encode := by
  intro r r' hr hr' x y h
  simp only [encode, List.append_assoc] at h
  obtain ⟨haddress, h⟩ := delimits_option delimits_array20 (fun _ _ => trivial)
    (fun _ _ => trivial) h
  obtain ⟨houtput, h⟩ := delimits_bytes hr.output hr'.output h
  obtain ⟨hgas, h⟩ := delimits_u64 hr.gasUsed hr'.gasUsed h
  obtain ⟨hlogs, h⟩ := delimits_seq EvmLog.delimits_encode hr.logs hr'.logs h
  exact ⟨EvmCallResult.ext haddress houtput hgas hlogs, h⟩

lemma ExecutionOutcome.delimits_encode :
    Delimits (fun o => ∀ reason, o = rejected reason → reason.utf8ByteSize < 2 ^ 64)
      ExecutionOutcome.encode := by
  intro o o' ho ho' x y h
  match o, o' with
  | success, success => exact ⟨rfl, List.append_cancel_left h⟩
  | success, rejected _ =>
    simp only [encode, List.append_assoc] at h
    cases (delimits_u32 (by decide) (by decide) h).1
  | rejected _, success =>
    simp only [encode, List.append_assoc] at h
    cases (delimits_u32 (by decide) (by decide) h).1
  | rejected reason, rejected reason' =>
    simp only [encode, List.append_assoc] at h
    obtain ⟨-, h⟩ := delimits_u32 (by decide) (by decide) h
    obtain ⟨hreason, h⟩ := delimits_str (ho _ rfl) (ho' _ rfl) h
    exact ⟨by rw [hreason], h⟩

lemma Receipt.delimits_encode : Delimits Receipt.Fits Receipt.encode := by
  intro r r' hr hr' x y h
  simp only [encode, List.append_assoc] at h
  obtain ⟨htxHash, h⟩ := delimits_array32 trivial trivial h
  obtain ⟨hheight, h⟩ := delimits_u64 hr.height hr'.height h
  obtain ⟨hfee, h⟩ := delimits_u128 hr.feeCharged hr'.feeCharged h
  obtain ⟨houtcome, h⟩ := ExecutionOutcome.delimits_encode hr.reason hr'.reason h
  obtain ⟨hevm, h⟩ := delimits_option EvmCallResult.delimits_encode hr.evm hr'.evm h
  exact ⟨Receipt.ext htxHash hheight hfee houtcome hevm, h⟩

/-- The bytes of a receipt are neither empty nor as many as those of a pair of hashes: a
success has 61 of them before the EVM result, a rejection 69 before its text. -/
lemma Receipt.length_encode_ne (r : Receipt) : r.encode.length ≠ 0 ∧ r.encode.length ≠ 64 := by
  have hlength : r.encode.length =
      56 + r.outcome.encode.length + (option EvmCallResult.encode r.evm).length := by
    simp only [encode, u64, u128, List.length_append, length_leBytes, length_array32]
  have houtcome : r.outcome.encode.length = 4 ∨ 12 ≤ r.outcome.encode.length := by
    cases r.outcome with
    | success => exact .inl (length_leBytes 4 0)
    | rejected reason =>
      right
      simp only [ExecutionOutcome.encode, str, bytes, u32, u64, List.length_append, length_leBytes]
      omega
  have hevm : (option EvmCallResult.encode r.evm).length = 1 ∨
      25 ≤ (option EvmCallResult.encode r.evm).length := by
    cases r.evm with
    | none => exact .inl rfl
    | some result =>
      right
      simp only [option, EvmCallResult.encode, seq, bytes, u64, List.length_cons,
        List.length_append, length_leBytes]
      omega
  omega

end ZenoChain
