/-
# Native supply

The sum of all native balances over a block.  A native transfer moves its amount and puts
its fee aside; the accounting of the block pays the fees out again.  An EVM transaction is
debited like a transfer, but nobody is credited with its amount.
-/
import ZenoChain.Execution.Replay
import ZenoChain.Execution.Transparent

namespace ZenoChain

open Word

namespace ExecutionEngine

/-- The amount that a transaction debits without crediting anybody. -/
def burned (tx : Transaction) : ℕ := if tx.body.evm.isSome then tx.body.amount else 0

/-- What the transactions of a list burn together. -/
def burnedBy (txs : List Transaction) : ℕ := (txs.map burned).sum

/-- The sum of the fees of a list of transactions. -/
def feeSum (txs : List Transaction) : ℕ := (txs.map fun tx => tx.body.fee).sum

/-- No addition of the transaction loop leaves its range: neither a fee added to the fees so
far, nor an amount added to the balance of its recipient. -/
def ExactTransactions : List Transaction → StateSnapshot → ℕ → Prop
  | [], _, _ => True
  | tx :: txs, state, fees =>
    match debitSender state tx.body with
    | .error _ => False
    | .ok debited =>
      fees + tx.body.fee < 2 ^ 128 ∧
      (tx.body.evm.isNone → (debited.account tx.body.recipient).balance + tx.body.amount < 2 ^ 128) ∧
      ExactTransactions txs (afterDebit debited tx) (fees + tx.body.fee)

/-- No credit of the block accounting leaves its range: neither the proposer's nor that of
the treasury account. -/
def ExactAccounting (economics : Option EconomicsParams) (state : StateSnapshot)
    (proposer : Address) (fees : ℕ) : Prop :=
  match economics with
  | none => (state.account proposer).balance + fees < 2 ^ 128
  | some economics =>
    (state.account proposer).balance + (fees - treasuryCut economics fees) < 2 ^ 128 ∧
    ((credit state proposer (fees - treasuryCut economics fees)).account treasuryAddress).balance +
      treasuryCut economics fees < 2 ^ 128

/-- No fee sum and no credit of a block overflows or saturates. -/
def NoOverflow (e : ExecutionEngine) (block : Block) (state : StateSnapshot) : Prop :=
  ExactTransactions block.transactions state 0 ∧
  ExactAccounting e.economics (replayNative block.transactions state) block.header.proposer
    (feeSum block.transactions)

/-! ## Debits and credits -/

lemma supply_debitSender {state debited : StateSnapshot} {body : TransactionBody}
    (h : debitSender state body = .ok debited) :
    debited.supply + (body.amount + body.fee) = state.supply := by
  obtain ⟨-, hle, -, rfl⟩ := debitSender_ok_iff.mp h
  have hput := state.supply_putAccount body.sender
    { nonce := (state.account body.sender).nonce + 1
      balance := (state.account body.sender).balance - (body.amount + body.fee) }
  have hbal := state.balance_le_supply body.sender
  dsimp only at hput
  omega

/-- A credit that fits adds exactly its amount to the supply. -/
lemma supply_credit {state : StateSnapshot} {a : Address} {amount : ℕ}
    (h : (state.account a).balance + amount < 2 ^ 128) :
    (credit state a amount).supply = state.supply + amount := by
  have hput := state.supply_putAccount a
    { state.account a with balance := saturatingAdd 128 (state.account a).balance amount }
  rw [saturatingAdd_of_lt h] at hput
  rw [credit, saturatingAdd_of_lt h]
  dsimp only at hput ⊢
  omega

lemma creditRecipient_eq_credit (state : StateSnapshot) (body : TransactionBody) :
    creditRecipient state body = credit state body.recipient body.amount := rfl

/-- A debited transaction leaves the supply less its fee and less what it burns. -/
lemma supply_afterDebit {state debited : StateSnapshot} {tx : Transaction}
    (h : debitSender state tx.body = .ok debited) (hs : state.supply < 2 ^ 128) :
    (tx.body.evm.isNone →
      (debited.account tx.body.recipient).balance + tx.body.amount < 2 ^ 128) ∧
    (afterDebit debited tx).supply + tx.body.fee + burned tx = state.supply := by
  have hdebit := supply_debitSender h
  have hbal := debited.balance_le_supply tx.body.recipient
  have hfits : (debited.account tx.body.recipient).balance + tx.body.amount < 2 ^ 128 := by omega
  refine ⟨fun _ => hfits, ?_⟩
  rw [afterDebit, burned]
  rcases hevm : tx.body.evm with _ | evm
  · rw [creditRecipient_eq_credit]
    simp only [Option.isNone_none, Option.isSome_none, if_true, Bool.false_eq_true, if_false]
    rw [supply_credit hfits]
    omega
  · simp only [Option.isNone_some, Option.isSome_some, Bool.false_eq_true, if_false, if_true]
    omega

/-! ## The transaction loop -/

section

variable [Hashing] [Revm] {e : ExecutionEngine} {scheme : SignatureScheme}

/-- **The loop invariant**: the supply, the fees put aside and what was burned add up to what
was there before, and no addition has left its range. -/
theorem applyTransactions_supply {height : ℕ} {txs : List Transaction} {state : StateSnapshot}
    {fees : ℕ} {receipts : List Receipt} {d d' : Disk} {state' : StateSnapshot} {fees' : ℕ}
    {receipts' : List Receipt}
    (h : e.applyTransactions scheme height txs state fees receipts d =
      .ok (state', fees', receipts') d')
    (hs : state.supply + fees < 2 ^ 128) :
    state' = replayNative txs state ∧ fees' = fees + feeSum txs ∧
      state'.supply + fees' + burnedBy txs = state.supply + fees ∧
      ExactTransactions txs state fees := by
  induction txs generalizing state fees receipts d with
  | nil =>
    cases h
    exact ⟨rfl, rfl, rfl, trivial⟩
  | cons tx txs ih =>
    obtain ⟨state₁, receipt, d₁, htx, hrest⟩ := applyTransactions_cons_ok_iff.mp h
    obtain ⟨-, debited, result, hdebit, -, rfl, -⟩ := applyTransaction_ok_iff.mp htx
    obtain ⟨hfits, hsupply⟩ := supply_afterDebit hdebit (by omega)
    have hfee : fees + tx.body.fee < 2 ^ 128 := by omega
    rw [wrappingAdd_of_lt hfee] at hrest
    obtain ⟨hstate, hfees, htotal, hexact⟩ := ih hrest (by omega)
    refine ⟨?_, ?_, ?_, ?_⟩
    · rw [hstate, replayNative, hdebit]
    · rw [hfees, feeSum, feeSum, List.map_cons, List.sum_cons]
      omega
    · rw [burnedBy, List.map_cons, List.sum_cons]
      rw [burnedBy] at htotal
      omega
    · rw [ExactTransactions, hdebit]
      exact ⟨hfee, hfits, hexact⟩

/-! ## The accounting of a block -/

omit [Hashing] [Revm] in
/-- The treasury never takes more than the fees. -/
lemma treasuryCut_le {economics : EconomicsParams} (h : economics.treasuryBps ≤ 10000)
    (fees : ℕ) : treasuryCut economics fees ≤ fees := by
  have hmul : saturatingMul 128 fees economics.treasuryBps ≤ fees * 10000 :=
    saturatingMul_le.trans (Nat.mul_le_mul_left _ h)
  rw [treasuryCut]
  omega

omit [Revm] in
/-- The accounting pays out exactly the fees, and its credits fit. -/
theorem applyBlockAccounting_supply {store : Store} {state state' : StateSnapshot}
    {proposer : Address} {fees height : ℕ} {accounting : AccountingArtifacts}
    (h : e.applyBlockAccounting store state proposer fees height = .ok (state', accounting))
    (hs : state.supply + fees < 2 ^ 128)
    (hshare : ∀ economics, e.economics = some economics → treasuryCut economics fees ≤ fees) :
    state'.supply = state.supply + fees ∧ ExactAccounting e.economics state proposer fees := by
  have hbal := state.balance_le_supply proposer
  rw [applyBlockAccounting] at h
  rw [ExactAccounting.eq_def]
  rcases hec : e.economics with _ | economics
  · rw [hec] at h
    have hfits : (state.account proposer).balance + fees < 2 ^ 128 := by omega
    obtain ⟨rfl, -⟩ := Prod.mk.inj (Except.ok.inj h)
    rw [wrappingAdd_of_lt hfits]
    have hput := state.supply_putAccount proposer
      { state.account proposer with balance := (state.account proposer).balance + fees }
    dsimp only at hput ⊢
    exact ⟨by omega, hfits⟩
  · rw [hec] at h
    dsimp only at h ⊢
    have hcut := hshare economics hec
    have hfits : (state.account proposer).balance + (fees - treasuryCut economics fees) <
        2 ^ 128 := by omega
    have hpaid := supply_credit hfits
    have htreasury :
        ((credit state proposer (fees - treasuryCut economics fees)).account
          treasuryAddress).balance + treasuryCut economics fees < 2 ^ 128 := by
      have := (credit state proposer (fees - treasuryCut economics fees)).balance_le_supply
        treasuryAddress
      omega
    have hall := supply_credit htreasury
    have hstate : state' = credit (credit state proposer (fees - treasuryCut economics fees))
        treasuryAddress (treasuryCut economics fees) := by
      split at h
      · split at h
        · cases h
        · exact (Prod.mk.inj (Except.ok.inj h)).1.symm
      · exact (Prod.mk.inj (Except.ok.inj h)).1.symm
    rw [hstate]
    exact ⟨by omega, hfits, htreasury⟩

/-! ## A whole block -/

omit [Hashing] [Revm] in
lemma burnedBy_eq_zero_iff {txs : List Transaction} :
    burnedBy txs = 0 ↔ ∀ tx ∈ txs, tx.body.evm.isSome → tx.body.amount = 0 := by
  rw [burnedBy, List.sum_eq_zero_iff_forall_eq_nat, List.forall_mem_map]
  simp only [burned, ite_eq_right_iff]

/-- A block of which the treasury takes no more than the fees leaves the supply less what it burns,
and no addition leaves its range. -/
lemma Prepares.supply {block : Block} {d d' : Disk} {p : PreparedBlock}
    (h : Prepares e scheme block d p d')
    (hsupply : (StateSnapshot.load d.store).supply < 2 ^ 128)
    (hshare : ∀ economics, e.economics = some economics →
      treasuryCut economics (feeSum block.transactions) ≤ feeSum block.transactions) :
    p.state.supply + burnedBy block.transactions = (StateSnapshot.load d.store).supply ∧
      NoOverflow e block (StateSnapshot.load d.store) := by
  obtain ⟨state, hloop, haccounting⟩ := h.replay
  obtain ⟨hstate, hfees, htotal, hexact⟩ := applyTransactions_supply hloop (by omega)
  rw [Nat.zero_add] at hfees
  rw [← hfees] at hshare
  obtain ⟨hpaid, hcredits⟩ := applyBlockAccounting_supply haccounting (by omega) hshare
  refine ⟨by omega, hexact, ?_⟩
  rw [← hstate, ← hfees]
  exact hcredits

/-- **Supply over a block.**  A block that is accepted on a state whose balances fit into 128
bits keeps the supply, with no addition leaving its range, exactly if its EVM transactions
carry no native amount. -/
theorem prepareBlock_conserves_iff {block : Block} {d d' : Disk} {p : PreparedBlock}
    (hrun : e.prepareBlock scheme block d = .ok p d')
    (hsupply : (StateSnapshot.load d.store).supply ≤ 2 ^ 128 - 1)
    (hbps : ∀ economics, e.economics = some economics → economics.treasuryBps ≤ 10000) :
    (p.state.supply = (StateSnapshot.load d.store).supply ∧
      NoOverflow e block (StateSnapshot.load d.store)) ↔
    ∀ tx ∈ block.transactions, tx.body.evm.isSome → tx.body.amount = 0 := by
  obtain ⟨hkeeps, hno⟩ := (prepareBlock_ok_iff.mp hrun).supply (by omega)
    fun economics hec => treasuryCut_le (hbps economics hec) _
  rw [← burnedBy_eq_zero_iff]
  constructor
  · rintro ⟨hkept, -⟩
    omega
  · intro hburned
    exact ⟨by omega, hno⟩

end

/-! ## Two accepted blocks -/

section

open Transparent

/-- An engine with EVM support and a treasury that takes a tenth of the fees. -/
def taxed : ExecutionEngine :=
  { devnet with
    evmChainId := some 1
    economics := some
      { minimumSelfBond := 1, epochLength := 0, unbondingEpochs := 1, treasuryBps := 1000
        downtimeSlashBps := 100, doubleSignSlashBps := 500 } }

/-- A call of the identity precompile that carries five units. -/
def carryingCall : Transaction :=
  payment [1] (address [9]) 5 0 10
    (some { kind := .call identityPrecompile [], value := 0, gasLimit := 30000, gasPrice := 0 })

/-- A block is accepted whose EVM transaction carries an amount, and five units are gone. -/
theorem prepareBlock_burns : (StateSnapshot.load funded.store).supply = 100 ∧
    ∃ p d', taxed.prepareBlock scheme (propose taxed funded [2] 1 0 0 [carryingCall]) funded =
      .ok p d' ∧ p.state.supply = 95 :=
  ⟨by decide +kernel, Handler.exists_of_output_map (f := fun p : PreparedBlock => p.state.supply)
    (by decide +kernel)⟩

/-- A transfer to itself, sent and proposed by the same account, keeps the supply. -/
theorem prepareBlock_conserves_iff_self : ∃ p d',
    taxed.prepareBlock scheme
      (propose taxed funded [1] 1 0 0 [payment [1] (address [1]) 5 0 10 none]) funded = .ok p d' ∧
    (p.state.supply = 100 ∧ NoOverflow taxed
        (propose taxed funded [1] 1 0 0 [payment [1] (address [1]) 5 0 10 none])
        (StateSnapshot.load funded.store) ↔
      ∀ tx ∈ (propose taxed funded [1] 1 0 0 [payment [1] (address [1]) 5 0 10 none]).transactions,
        tx.body.evm.isSome → tx.body.amount = 0) := by
  obtain ⟨p, d', hrun, -⟩ := Handler.exists_of_output_map (b := ())
    (r := taxed.prepareBlock scheme
      (propose taxed funded [1] 1 0 0 [payment [1] (address [1]) 5 0 10 none]) funded)
    (f := fun _ => ()) (by decide +kernel)
  have hsupply : (StateSnapshot.load funded.store).supply = 100 := by decide +kernel
  refine ⟨p, d', hrun, ?_⟩
  rw [← hsupply]
  exact prepareBlock_conserves_iff hrun (by rw [hsupply]; decide) (by
    rintro _ ⟨⟩
    decide)

end

end ExecutionEngine

end ZenoChain
