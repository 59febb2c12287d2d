/-
# Nonces

Only the debit of a sender moves a nonce, and it moves it by one; the transaction has to name
the nonce before.  So over any sequence of blocks the transactions of a sender carry
consecutive nonces, and none of them is executed twice.
-/
import ZenoChain.Execution.Chain

namespace ZenoChain

open Word

namespace ExecutionEngine

/-! ## What keeps a nonce -/

lemma nonce_putAccount (state : StateSnapshot) {a : Address} {account : Account}
    (h : account.nonce = (state.account a).nonce) (b : Address) :
    ((state.putAccount a account).account b).nonce = (state.account b).nonce := by
  rw [StateSnapshot.account_putAccount]
  split
  · rename_i hb
    rw [h, hb]
  · rfl

/-- A credit changes no nonce. -/
lemma nonce_credit (state : StateSnapshot) (a : Address) (amount : ℕ) (b : Address) :
    ((credit state a amount).account b).nonce = (state.account b).nonce := by
  refine nonce_putAccount state ?_ b
  rfl

lemma nonce_creditRecipient (state : StateSnapshot) (body : TransactionBody) (b : Address) :
    ((creditRecipient state body).account b).nonce = (state.account b).nonce := by
  refine nonce_putAccount state ?_ b
  rfl

lemma nonce_payFees (e : ExecutionEngine) (state : StateSnapshot) (proposer : Address) (fees : ℕ)
    (b : Address) : ((payFees e state proposer fees).account b).nonce = (state.account b).nonce := by
  rw [payFees]
  split
  · refine nonce_putAccount state ?_ b
    rfl
  · rw [nonce_credit, nonce_credit]

/-- A debited transaction moves the nonce of its sender by one. -/
lemma nonce_afterDebit {state debited : StateSnapshot} {tx : Transaction}
    (h : debitSender state tx.body = .ok debited) (a : Address) :
    ((afterDebit debited tx).account a).nonce =
      (state.account a).nonce + if tx.body.sender = a then 1 else 0 := by
  obtain ⟨-, -, -, rfl⟩ := debitSender_ok_iff.mp h
  have hdebited : ∀ b, ((state.putAccount tx.body.sender
      { nonce := (state.account tx.body.sender).nonce + 1
        balance := (state.account tx.body.sender).balance - (tx.body.amount + tx.body.fee) }).account
        b).nonce = (state.account b).nonce + if tx.body.sender = b then 1 else 0 := by
    intro b
    rw [StateSnapshot.account_putAccount]
    by_cases hb : b = tx.body.sender
    · subst hb
      rw [if_pos rfl, if_pos rfl]
    · rw [if_neg hb, if_neg (Ne.symm hb), Nat.add_zero]
  rw [afterDebit]
  split
  · rw [nonce_creditRecipient, hdebited]
  · exact hdebited a

/-! ## The transactions of a sender -/

/-- The transactions of a list that an account has sent. -/
def sentBy (a : Address) (txs : List Transaction) : List Transaction :=
  txs.filter fun tx => tx.body.sender = a

lemma sentBy_append (a : Address) (txs txs' : List Transaction) :
    sentBy a (txs ++ txs') = sentBy a txs ++ sentBy a txs' := List.filter_append _ _

/-- The nonces of an account over some transactions: it ends with as many more as the account
has sent, and these are numbered from the one at the start. -/
def CountsSent (state : StateSnapshot) (txs : List Transaction) (state' : StateSnapshot) : Prop :=
  ∀ a, (state'.account a).nonce = (state.account a).nonce + (sentBy a txs).length ∧
    (sentBy a txs).map (fun tx => tx.body.nonce) =
      List.range' (state.account a).nonce (sentBy a txs).length

lemma CountsSent.trans {state state₁ state' : StateSnapshot} {txs txs' : List Transaction}
    (h : CountsSent state txs state₁) (h' : CountsSent state₁ txs' state') :
    CountsSent state (txs ++ txs') state' := by
  intro a
  obtain ⟨hnonce, hrange⟩ := h a
  obtain ⟨hnonce', hrange'⟩ := h' a
  rw [sentBy_append, List.length_append, List.map_append, hrange, hrange', hnonce', hnonce]
  exact ⟨Nat.add_assoc _ _ _, List.range'_append_1⟩

variable [Hashing] {e : ExecutionEngine} {scheme : SignatureScheme}

omit [Hashing] in
/-- The replay of an admitted list counts its transactions. -/
lemma countsSent_replayNative {height : ℕ} {txs : List Transaction} {state : StateSnapshot}
    (h : Admits e scheme height txs state) : CountsSent state txs (replayNative txs state) := by
  induction txs generalizing state with
  | nil => exact fun a => ⟨rfl, rfl⟩
  | cons tx txs ih =>
    obtain ⟨hvalid, debited, hdebit, hrest⟩ := h
    have hone : CountsSent state [tx] (afterDebit debited tx) := by
      intro a
      rw [nonce_afterDebit hdebit]
      by_cases ha : tx.body.sender = a
      · subst ha
        have hnonce := nonce_of_validateTransaction hvalid
        simp [sentBy, hnonce]
      · simp [sentBy, ha]
    rw [replayNative, hdebit]
    exact hone.trans (ih hrest)

variable [Revm]

/-- Blocks are executed one after the other, each on a store that holds the accounts that the
one before has left; the rest of the store may be anything. -/
inductive Executed (e : ExecutionEngine) (scheme : SignatureScheme) :
    StateSnapshot → List Block → StateSnapshot → Prop
  | nil (state : StateSnapshot) : Executed e scheme state [] state
  | cons {block : Block} {blocks : List Block} {d d' : Disk} {p : PreparedBlock}
      {state' : StateSnapshot} (run : e.prepareBlock scheme block d = .ok p d')
      (rest : Executed e scheme p.state blocks state') :
      Executed e scheme d.store.accounts (block :: blocks) state'

lemma Executed.trans {state state₁ state' : StateSnapshot} {blocks blocks' : List Block}
    (h : Executed e scheme state blocks state₁) (h' : Executed e scheme state₁ blocks' state') :
    Executed e scheme state (blocks ++ blocks') state' := by
  induction h with
  | nil => exact h'
  | cons run _ ih => exact .cons run (ih h')

/-- One block counts its transactions. -/
lemma countsSent_prepareBlock {block : Block} {d d' : Disk} {p : PreparedBlock}
    (h : e.prepareBlock scheme block d = .ok p d') :
    CountsSent d.store.accounts block.transactions p.state := by
  obtain ⟨state, hloop, haccounting⟩ := (prepareBlock_ok_iff.mp h).replay
  obtain ⟨hadmits, results, -, hout⟩ := applyTransactions_ok_iff.mp hloop
  obtain ⟨rfl, -⟩ := Prod.mk.inj hout
  have hreplay := countsSent_replayNative hadmits
  rw [(applyBlockAccounting_ok _ _ _ _ _).1 _ _ haccounting]
  intro a
  rw [nonce_payFees]
  exact hreplay a

/-- Accounts move through the blocks that a process commits. -/
theorem executed_of_commits {d₀ d : Disk}
    (h : Relation.ReflTransGen (CommitStep e scheme) d₀ d) :
    ∃ blocks, d.committed.map FinalizedBlock.block = d₀.committed.map FinalizedBlock.block ++ blocks ∧
      Executed e scheme d₀.store.accounts blocks d.store.accounts := by
  induction h with
  | refl => exact ⟨[], (List.append_nil _).symm, .nil _⟩
  | @tail d₁ d₂ _ hstep ih =>
    obtain ⟨blocks, hblocks, hexecuted⟩ := ih
    cases hstep with
    | @accepted finalized _ hrun =>
      obtain ⟨p, d', hp, hc⟩ := commitsTo_of_validateAndCommit hrun
      refine ⟨blocks ++ [finalized.block], ?_, hexecuted.trans ?_⟩
      · rw [hc.committed, List.map_append, hblocks, List.append_assoc]
        rfl
      · rw [hc.accounts]
        exact .cons (prepareBlock_ok_iff.mpr hp) (.nil _)
    | rejected hrun =>
      obtain ⟨hcommitted, -, -, -, haccounts⟩ := (onlyEvmWrites_of_error hrun).index
      exact ⟨blocks, hcommitted ▸ hblocks, haccounts ▸ hexecuted⟩

omit [Hashing] [Revm] in
/-- Pairs that are different for each sender are different. -/
lemma nodup_keys {txs : List Transaction}
    (h : ∀ a, ((sentBy a txs).map fun tx => tx.body.nonce).Nodup) :
    (txs.map fun tx => (tx.body.sender, tx.body.nonce)).Nodup := by
  induction txs with
  | nil => exact List.nodup_nil
  | cons tx txs ih =>
    rw [List.map_cons, List.nodup_cons]
    constructor
    · intro hmem
      obtain ⟨tx', htx', hkey⟩ := List.mem_map.mp hmem
      obtain ⟨hsender, hnonce⟩ := Prod.mk.inj hkey
      have hsent : tx' ∈ sentBy tx.body.sender txs := List.mem_filter.mpr ⟨htx', by simp [hsender]⟩
      have hown := h tx.body.sender
      rw [sentBy, List.filter_cons_of_pos (by simp), List.map_cons, List.nodup_cons] at hown
      exact hown.1 (List.mem_map.mpr ⟨tx', hsent, hnonce⟩)
    · refine ih fun a => ?_
      have hown := h a
      rw [sentBy, List.filter_cons] at hown
      split at hown
      · exact (List.nodup_cons.mp hown).2
      · exact hown

/-- **Replay protection.**  Over any sequence of executed blocks, the nonce of an account grows
by the number of transactions it has sent, these carry consecutive nonces in the order of
execution, and no sender and nonce, and so no transaction, occurs twice.  Crediting a recipient
and paying out the fees change no nonce. -/
theorem executed_countsSent {state state' : StateSnapshot} {blocks : List Block}
    (h : Executed e scheme state blocks state') :
    CountsSent state (blocks.flatMap Block.transactions) state' ∧
    ((blocks.flatMap Block.transactions).map fun tx => (tx.body.sender, tx.body.nonce)).Nodup ∧
    (blocks.flatMap Block.transactions).Nodup ∧
    (∀ (s : StateSnapshot) (body : TransactionBody) (a : Address),
      ((creditRecipient s body).account a).nonce = (s.account a).nonce) ∧
    ∀ (store : Store) (s s' : StateSnapshot) (proposer : Address) (fees height : ℕ)
      (accounting : AccountingArtifacts),
      e.applyBlockAccounting store s proposer fees height = .ok (s', accounting) →
      ∀ a, (s'.account a).nonce = (s.account a).nonce := by
  have hcounts : CountsSent state (blocks.flatMap Block.transactions) state' := by
    induction h with
    | nil => exact fun a => ⟨rfl, rfl⟩
    | cons run _ ih => exact (countsSent_prepareBlock run).trans ih
  have hkeys := nodup_keys fun a => by
    rw [(hcounts a).2]
    exact List.nodup_range'
  refine ⟨hcounts, hkeys, hkeys.of_map, nonce_creditRecipient, ?_⟩
  intro store s s' proposer fees height accounting haccounting a
  rw [(applyBlockAccounting_ok _ _ _ _ _).1 _ _ haccounting, nonce_payFees]

end ExecutionEngine

/-! ## A block with three transfers -/

section

open Transparent

/-- A block in which two accounts send, one of them twice and once to itself. -/
def busyBlock : Block :=
  propose devnet { store := { backend := .memory, accounts := holding [([1], 100), ([2], 50)] } } [2] 1 0 0
    [payment [1] (address [1]) 5 0 10 none, payment [2] (address [1]) 1 0 10 none,
     payment [1] (address [2]) 7 1 10 none]

/-- The nonces after it. -/
theorem busyBlock_countsSent : ∃ state',
    ExecutionEngine.Executed devnet scheme (holding [([1], 100), ([2], 50)]) [busyBlock] state' ∧
    (state'.account (address [1])).nonce = 2 ∧
    ExecutionEngine.CountsSent (holding [([1], 100), ([2], 50)]) busyBlock.transactions state' := by
  let d : Disk := { store := { backend := .memory, accounts := holding [([1], 100), ([2], 50)] } }
  obtain ⟨p, d', hrun, hnonce⟩ := Handler.exists_of_output_map
    (r := devnet.prepareBlock scheme busyBlock d)
    (f := fun p : PreparedBlock => (p.state.account (address [1])).nonce) (b := 2)
    (by decide +kernel)
  have hexecuted : ExecutionEngine.Executed devnet scheme d.store.accounts [busyBlock] p.state :=
    .cons hrun (.nil _)
  exact ⟨p.state, hexecuted, hnonce, (ExecutionEngine.executed_countsSent hexecuted).1⟩

end

end ZenoChain
