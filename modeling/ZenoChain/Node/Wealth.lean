/-
# Public and shielded value

The RPC calls of the shielded pool move value between two ledgers, the stored accounts and the
total of the pool.  A shield only adds to the total: it names no account, and none is debited.
An unshield adds to an account what it takes from the total, where both have room for it.
-/
import ZenoChain.Node.CommittedRoot
import ZenoChain.Zk.Spending

namespace ZenoChain

open Word

/-- The RPC calls of the shielded pool that write. -/
inductive ZkCall
  | shield (request : ShieldRequest)
  | unshield (request : UnshieldRequest)

/-- A call as an event of the node. -/
def ZkCall.event : ZkCall → NodeEvent
  | shield request => .zkShield request
  | unshield request => .zkUnshield request

namespace Node

/-- All public balances and the total of the shielded pool. -/
def wealth (n : Node) : ℕ :=
  StateSnapshot.supply n.disk.store.accounts + n.zkPool.totalShieldedValue

/-- The balance of an account. -/
def balance (n : Node) (address : Address) : ℕ :=
  (StateSnapshot.account n.disk.store.accounts address).balance

/-- The amounts of a node are words of 128 bits. -/
structure InRange (n : Node) : Prop where
  balances : ∀ address, n.balance address < 2 ^ 128
  total : n.zkPool.totalShieldedValue < 2 ^ 128

section

variable [Hashing]

/-- A call that leaves the wealth alone: a shield into a full tree, of nothing, or with a total that
has no room; an unshield that is refused, or for which the recipient has as much room for the value
as the total has of it. -/
def Settles (n : Node) : ZkCall → Prop
  | .shield request =>
    2 ^ commitmentTreeDepth ≤ n.zkPool.tree.leafCount ∨ request.value = 0 ∨
      n.zkPool.totalShieldedValue = maxValue 128
  | .unshield request =>
    n.zkPool.nullifiers.contains request.nullifier = true ∨
      ¬ Spend.Current ⟨request.nullifier, request.merkleRoot, request.merkleProof⟩ n.zkPool ∨
      min request.value (maxValue 128 - n.balance request.recipient) =
        min request.value n.zkPool.totalShieldedValue

variable [Revm]

/-- The node after a call. -/
def call (config : NodeConfig) (n : Node) (c : ZkCall) : Node := n.handle config c.event

variable {config : NodeConfig} {n : Node}

/-! ## What a call does -/

lemma call_shield_full {request : ShieldRequest}
    (h : 2 ^ commitmentTreeDepth ≤ n.zkPool.tree.leafCount) :
    n.call config (.shield request) = n := by
  have hinsert : ShieldedPool.insertCommitment request.commitment n.zkPool =
      .error (.verificationFailed "tree is full") n.zkPool :=
    Handler.zoom_error (CommitmentTree.insert_full h request.commitment)
  have hrun : ShieldedPool.shield request n.zkPool = .error _ n.zkPool :=
    Handler.bind_error hinsert
  show { n with zkPool := Handler.final (ShieldedPool.shield request n.zkPool) } = n
  rw [hrun]
  rfl

/-- A shield with room adds to the total and touches no account. -/
lemma call_shield_room (config : NodeConfig) (request : ShieldRequest)
    (h : n.zkPool.tree.leafCount < 2 ^ commitmentTreeDepth) :
    (n.call config (.shield request)).disk = n.disk ∧
      (n.call config (.shield request)).zkPool.totalShieldedValue =
        saturatingAdd 128 n.zkPool.totalShieldedValue request.value := by
  have hrun := ShieldedPool.shield_ok (CommitmentTree.insert_run h request.commitment)
  refine ⟨rfl, ?_⟩
  show (Handler.final (ShieldedPool.shield request n.zkPool)).totalShieldedValue = _
  rw [hrun, Handler.final_ok]

/-- An unshield is refused, or it credits the recipient and takes the value from the total. -/
lemma call_unshield_cases (config : NodeConfig) (n : Node) (request : UnshieldRequest) :
    ((n.zkPool.nullifiers.contains request.nullifier = true ∨
        ¬ Spend.Current ⟨request.nullifier, request.merkleRoot, request.merkleProof⟩ n.zkPool) ∧
      n.call config (.unshield request) = n) ∨
    ((n.zkPool.nullifiers.contains request.nullifier = false ∧
        Spend.Current ⟨request.nullifier, request.merkleRoot, request.merkleProof⟩ n.zkPool) ∧
      (∃ account : Account,
        account.balance = saturatingAdd 128 (n.balance request.recipient) request.value ∧
        (n.call config (.unshield request)).disk.store.accounts =
          StateSnapshot.putAccount n.disk.store.accounts request.recipient account) ∧
      (n.call config (.unshield request)).zkPool.totalShieldedValue =
        n.zkPool.totalShieldedValue - request.value) := by
  by_cases hfresh : n.zkPool.nullifiers.contains request.nullifier = false
  · by_cases hcurrent :
        Spend.Current ⟨request.nullifier, request.merkleRoot, request.merkleProof⟩ n.zkPool
    · right
      have hcall : n.call config (.unshield request) =
          onDisk
            { n with zkPool :=
              { n.zkPool.withNullifier request.nullifier with
                totalShieldedValue :=
                  saturatingSub n.zkPool.totalShieldedValue request.value } }
            (creditStored request.recipient request.value) := by
        rw [call, ZkCall.event, handle, ShieldedPool.unshield_of_current hcurrent hfresh]
      rw [hcall]
      exact ⟨⟨hfresh, hcurrent⟩, ⟨_, rfl, rfl⟩, rfl⟩
    · refine .inl ⟨.inr hcurrent, ?_⟩
      rcases ShieldedPool.unshield_cases request n.zkPool with ⟨e, herror⟩ | ⟨hok, -⟩
      · rw [call, ZkCall.event, handle, herror]
      · exact absurd hok hcurrent
  · refine .inl ⟨.inl (by simpa using hfresh), ?_⟩
    rcases ShieldedPool.unshield_cases request n.zkPool with ⟨e, herror⟩ | ⟨-, hok, -⟩
    · rw [call, ZkCall.event, handle, herror]
    · exact absurd hok hfresh

/-! ## Which calls settle -/

omit [Hashing] [Revm] in
lemma saturatingAdd_eq_iff {a b : ℕ} (ha : a < 2 ^ 128) :
    saturatingAdd 128 a b = a ↔ b = 0 ∨ a = maxValue 128 := by
  have hle := le_maxValue_iff.mpr ha
  rw [saturatingAdd]
  omega

omit [Hashing] [Revm] in
/-- What a balance takes, and what a total gives. -/
lemma credit_eq_iff {balance total value : ℕ} (hbalance : balance < 2 ^ 128) :
    saturatingAdd 128 balance value + (total - value) = balance + total ↔
      min value (maxValue 128 - balance) = min value total := by
  have hle := le_maxValue_iff.mpr hbalance
  rw [saturatingAdd]
  omega

/-- A call leaves the wealth alone exactly if it settles. -/
lemma wealth_call_iff (h : n.InRange) (c : ZkCall) :
    (n.call config c).wealth = n.wealth ↔ n.Settles c := by
  cases c with
  | shield request =>
    rw [Settles]
    rcases Nat.lt_or_ge n.zkPool.tree.leafCount (2 ^ commitmentTreeDepth) with hroom | hfull
    · obtain ⟨hdisk, htotal⟩ := call_shield_room config request hroom
      rw [wealth, wealth, hdisk, htotal, Nat.add_left_cancel_iff, saturatingAdd_eq_iff h.total,
        or_iff_right (Nat.not_le.mpr hroom)]
    · rw [call_shield_full hfull]
      exact iff_of_true rfl (.inl hfull)
  | unshield request =>
    rw [Settles]
    rcases call_unshield_cases config n request with
      ⟨hrefused, hcall⟩ | ⟨⟨hfresh, hcurrent⟩, ⟨account, hbalance, haccounts⟩, htotal⟩
    · rw [hcall]
      exact iff_of_true rfl (hrefused.imp_right .inl)
    · have hput := StateSnapshot.supply_putAccount n.disk.store.accounts request.recipient
        account
      have hle := StateSnapshot.balance_le_supply n.disk.store.accounts request.recipient
      rw [hfresh, or_iff_right Bool.false_ne_true, or_iff_right (not_not.mpr hcurrent),
        ← credit_eq_iff (h.balances request.recipient), wealth, wealth, haccounts, htotal]
      rw [hbalance] at hput
      rw [balance] at hput ⊢
      omega

lemma InRange.call (h : n.InRange) (c : ZkCall) : (n.call config c).InRange := by
  cases c with
  | shield request =>
    rcases Nat.lt_or_ge n.zkPool.tree.leafCount (2 ^ commitmentTreeDepth) with hroom | hfull
    · obtain ⟨hdisk, htotal⟩ := call_shield_room config request hroom
      refine ⟨fun address => ?_, ?_⟩
      · rw [balance, hdisk]
        exact h.balances address
      · rw [htotal]
        exact le_maxValue_iff.mp (Nat.min_le_right _ _)
    · rwa [call_shield_full hfull]
  | unshield request =>
    rcases call_unshield_cases config n request with ⟨-, hcall⟩ | ⟨-, ⟨account, hbalance, haccounts⟩, htotal⟩
    · rwa [hcall]
    · refine ⟨fun address => ?_, ?_⟩
      · rw [balance, haccounts, StateSnapshot.account_putAccount]
        split
        · rw [hbalance]
          exact le_maxValue_iff.mp (Nat.min_le_right _ _)
        · exact h.balances address
      · rw [htotal]
        exact lt_of_le_of_lt (Nat.sub_le _ _) h.total

/-- **Value moves between the ledgers** in every call of a sequence exactly if every call settles in
the state in which it happens. -/
theorem wealth_run_iff (h : n.InRange) (calls : List ZkCall) :
    (∀ e ∈ Trace.along (call config) n calls, (e.1.call config e.2).wealth = e.1.wealth) ↔
      ∀ e ∈ Trace.along (call config) n calls, e.1.Settles e.2 := by
  have hstep : ∀ (n : Node) (c : ZkCall), n.InRange → True → (n.call config c).InRange :=
    fun n c h _ => h.call c
  have hall := (Trace.keeps hstep h fun e (_ : e ∈ Trace.along (call config) n calls) => trivial).1
  exact forall₂_congr fun e he => wealth_call_iff (hall e he) e.2

end

end Node

/-! ## A shield from nothing -/

section

open Transparent

/-- A node on which the only account holds a hundred units. -/
def fundedNode : Node := { disk := funded }

/-- A shield that succeeds creates its value: no account is debited. -/
theorem shield_creates_value :
    (∃ index pool, ShieldedPool.shield ⟨50, 5⟩ fundedNode.zkPool = .ok index pool) ∧
    (fundedNode.call faucetNode (.shield ⟨50, 5⟩)).wealth = fundedNode.wealth + 50 := by
  have hroom : fundedNode.zkPool.tree.leafCount < 2 ^ commitmentTreeDepth := by decide
  refine ⟨⟨_, _, ShieldedPool.shield_ok (CommitmentTree.insert_run hroom 5)⟩, ?_⟩
  obtain ⟨hdisk, htotal⟩ := Node.call_shield_room faucetNode ⟨50, 5⟩ hroom
  rw [Node.wealth, hdisk, htotal]
  decide +kernel

lemma inRange_fundedNode : fundedNode.InRange := by
  refine ⟨fun a => ?_, by decide⟩
  have hle := StateSnapshot.balance_le_supply fundedNode.disk.store.accounts a
  have hsupply : StateSnapshot.supply fundedNode.disk.store.accounts = 100 := by decide +kernel
  rw [Node.balance]
  omega

/-- A shield of nothing and an unshield without a proof leave the wealth alone. -/
theorem idle_calls_keep_wealth :
    (fundedNode.call faucetNode (.shield ⟨0, 5⟩)).wealth = fundedNode.wealth ∧
    ((fundedNode.call faucetNode (.shield ⟨0, 5⟩)).call faucetNode
        (.unshield ⟨1, ⟨0, 0, []⟩, 0, 10, 3⟩)).wealth =
      (fundedNode.call faucetNode (.shield ⟨0, 5⟩)).wealth := by
  have hkeeps : ∀ e ∈ Trace.along (Node.call faucetNode) fundedNode
      [.shield ⟨0, 5⟩, .unshield ⟨1, ⟨0, 0, []⟩, 0, 10, 3⟩],
      (e.1.call faucetNode e.2).wealth = e.1.wealth := by
    refine (Node.wealth_run_iff inRange_fundedNode _).mpr ?_
    refine List.forall_mem_cons.mpr ⟨.inr (.inl rfl), List.forall_mem_singleton.mpr ?_⟩
    refine .inr (.inl fun hcurrent => ?_)
    have hlength : 0 = commitmentTreeDepth := (verifyCommitmentProof_iff.mp hcurrent.2).1
    cases hlength
  simp only [Trace.along, List.forall_mem_cons] at hkeeps
  exact ⟨hkeeps.1, hkeeps.2.1⟩

end

end ZenoChain
