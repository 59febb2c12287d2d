/-
# The selection of transactions for a block

A block takes the best pending transactions by fee.  One selector sorts the values of the hash
map, the other one walks the maintained order backwards; both take the same fees.  Among
transactions of one fee the first selector keeps the order of the hash map, which differs from
run to run, so that its choice is determined by the pool only if no two transactions of one fee
reach above the limit.
-/
import ZenoChain.Base.Rankings
import ZenoChain.Node.MempoolIndexes

namespace ZenoChain

namespace Mempool

/-- Returns up to `limit` highest-fee transactions. -/
def selectForBlock (m : Mempool) (limit : ℕ) : List Transaction :=
  (m.order.toList.reverse.take limit).filterMap fun e => m.byHash[e.1.2]?

/-! ## Every pending transaction stands under its id -/

section

variable [Hashing]

/-- What is pending afterwards was pending before or stands under its id. -/
def OnlyFiles (m m' : Mempool) : Prop :=
  ∀ (hash : Hash32) (tx : Transaction), m'.byHash[hash]? = some tx →
    m.byHash[hash]? = some tx ∨ tx.id = hash

instance : Std.Refl OnlyFiles := ⟨fun _ _ _ => .inl⟩

instance : IsTrans Mempool OnlyFiles :=
  ⟨fun _ _ _ hab hbc hash tx htx => (hbc hash tx htx).elim (hab hash tx) .inr⟩

variable {m m' : Mempool} {tx : Transaction}

lemma onlyFiles_of_erase {hash : Hash32} (h : m'.byHash = m.byHash.erase hash) :
    m.OnlyFiles m' := by
  intro hash' tx' htx'
  rw [h, Table.getElem?_erase] at htx'
  split at htx'
  · cases htx'
  · exact .inl htx'

lemma onlyFiles_of_eq (h : m'.byHash = m.byHash) : m.OnlyFiles m' :=
  fun _ _ htx' => .inl (h ▸ htx')

lemma onlyFiles_enter (tx : Transaction) (isReplacement : Bool) :
    m.OnlyFiles (m.enter tx tx.id isReplacement) := by
  intro hash' tx' htx'
  rw [enter, Table.getElem?_insert] at htx'
  split at htx'
  · rename_i hsame
    rw [← Option.some.inj htx', hsame]
    exact .inr rfl
  · exact .inl htx'

lemma onlyFiles_discard (hash : Hash32) (tx : Transaction) : m.OnlyFiles (m.discard hash tx) :=
  fun _ _ htx' => .inl (getElem?_discard htx')

open Handler in
lemma keeps_replaceInPlace (tx : Transaction) (existingHash : Hash32) :
    Keeps OnlyFiles (replaceInPlace tx existingHash) := by
  refine .bind .get fun m => ?_
  split
  · exact .throw _
  · split
    · exact .throw _
    · exact .bind (.modify fun _ => onlyFiles_of_eq rfl) fun _ =>
        .modify fun _ => onlyFiles_of_erase rfl

open Handler in
lemma keeps_evictInPlace (lowestFee : ℕ) (lowestHash : Hash32) :
    Keeps OnlyFiles (evictInPlace lowestFee lowestHash) := by
  refine .bind .get fun m => ?_
  split
  · exact .pure _
  · refine .bind (.modify fun _ => onlyFiles_of_erase rfl) fun _ =>
      .bind (.modify fun _ => onlyFiles_of_eq rfl) fun _ =>
      .bind (.modify fun _ => onlyFiles_of_eq rfl) fun _ => .bind .get fun m' => ?_
    split
    · exact .throw _
    · exact .modify fun _ => onlyFiles_of_eq rfl

open Handler in
lemma keeps_insertInPlace (tx : Transaction) : Keeps OnlyFiles (insertInPlace tx) := by
  refine .bind .get fun m => ?_
  split
  · exact .throw _
  · split
    · exact .bind (keeps_replaceInPlace tx _) fun _ => .modify fun _ => onlyFiles_enter tx true
    · refine .bind (.ofExcept _) fun _ => .bind ?_ fun _ => .modify fun _ => onlyFiles_enter tx false
      refine .bind .get fun m' => ?_
      split
      · exact .pure _
      · split
        · exact .throw _
        · split
          · exact .throw _
          · exact keeps_evictInPlace _ _

end

/-! ## What is selected -/

/-- The order of a block is the one by fee alone: the fees with priority are the high ones. -/
lemma precedesInBlock_iff {a b : Transaction} : PrecedesInBlock a b ↔ b.body.fee ≤ a.body.fee := by
  rw [PrecedesInBlock]
  omega

/-- The pending transactions that have not expired. -/
def unexpired (pending : List Transaction) (currentHeight : ℕ) : List Transaction :=
  pending.filter fun tx => ¬ Expired tx currentHeight

lemma mem_unexpired {pending : List Transaction} {currentHeight : ℕ} {tx : Transaction} :
    tx ∈ unexpired pending currentHeight ↔ tx ∈ pending ∧ ¬ Expired tx currentHeight := by
  rw [unexpired, List.mem_filter, decide_eq_true_eq]

lemma selectForBlockPrioritized_eq (pending : List Transaction) (limit currentHeight : ℕ) :
    selectForBlockPrioritized pending limit currentHeight =
      best (fun tx => tx.body.fee) limit (unexpired pending currentHeight) := by
  have horder : PrecedesInBlock = fun a b => b.body.fee ≤ a.body.fee :=
    funext fun a => funext fun b => propext precedesInBlock_iff
  rw [selectForBlockPrioritized, best, ranked, unexpired]
  simp only [horder]

/-- A choice of the best fees among the unexpired pending transactions. -/
structure FeeOptimal (pending : List Transaction) (limit currentHeight : ℕ)
    (chosen : List Transaction) : Prop where
  nodup : chosen.Nodup
  available : ∀ tx ∈ chosen, tx ∈ pending ∧ ¬ Expired tx currentHeight
  length : chosen.length = min limit (unexpired pending currentHeight).length
  ordered : chosen.Pairwise fun a b => b.body.fee ≤ a.body.fee
  nothingBetter : ∀ tx ∈ pending, ¬ Expired tx currentHeight → tx ∉ chosen →
    ∀ tx' ∈ chosen, tx.body.fee ≤ tx'.body.fee

lemma feeOptimal_select {pending : List Transaction} (h : pending.Nodup) (limit currentHeight : ℕ) :
    FeeOptimal pending limit currentHeight
      (selectForBlockPrioritized pending limit currentHeight) := by
  rw [selectForBlockPrioritized_eq]
  exact
    { nodup := nodup_best (h.filter _)
      available := fun tx htx => mem_unexpired.mp (mem_of_mem_best htx)
      length := length_best
      ordered := pairwise_best
      nothingBetter := fun tx htx hvalid hnot tx' htx' =>
        le_of_not_mem_best (f := fun tx : Transaction => tx.body.fee)
          (mem_unexpired.mpr ⟨htx, hvalid⟩) hnot htx' }

variable [Hashing] {m : Mempool}

/-- The order holds the fees and ids of what is pending. -/
lemma Consistent.order_perm (h : m.Consistent) :
    (m.order.toList.map Prod.fst).Perm
      ((Table.values m.byHash).map fun tx => (tx.body.fee, tx.id)) := by
  have hids := Table.nodup_map_values h.ids
  have hentries : ((Table.values m.byHash).map fun tx => (tx.body.fee, tx.id)).Nodup := by
    refine List.Nodup.of_map Prod.snd ?_
    rwa [List.map_map]
  rw [List.perm_ext_iff_of_nodup (Table.nodup_keys _) hentries]
  rintro ⟨fee, hash⟩
  have hentry : (fee, hash) ∈ m.order.toList.map Prod.fst ↔ m.order[(fee, hash)]?.isSome := by
    rw [Std.ExtTreeMap.map_fst_toList_eq_keys, Std.ExtTreeMap.mem_keys,
      Std.ExtTreeMap.mem_iff_isSome_getElem?]
  rw [hentry, h.order, List.mem_map]
  constructor
  · rintro ⟨tx, htx, rfl⟩
    exact ⟨tx, Table.mem_values_iff.mpr ⟨hash, htx⟩, by rw [h.ids hash tx htx]⟩
  · rintro ⟨tx, htx, heq⟩
    obtain ⟨hash', htx'⟩ := Table.mem_values_iff.mp htx
    obtain ⟨rfl, rfl⟩ := Prod.mk.inj heq
    rw [← h.ids hash' tx htx'] at htx'
    exact ⟨tx, htx', rfl⟩

/-- Under each entry of the order stands a transaction of that fee. -/
lemma Consistent.map_fee_filterMap (h : m.Consistent) {entries : List ((ℕ × Hash32) × Unit)}
    (hentries : ∀ e ∈ entries, e ∈ m.order.toList) :
    (entries.filterMap fun e => m.byHash[e.1.2]?).map (fun tx => tx.body.fee) =
      entries.map fun e => e.1.1 := by
  induction entries with
  | nil => rfl
  | cons e entries ih =>
    rw [List.forall_mem_cons] at hentries
    have hsome : m.order[(e.1.1, e.1.2)]?.isSome := by
      rw [Table.mem_toList_iff.mp hentries.1]
      rfl
    obtain ⟨tx, htx, hfee⟩ := (h.order _ _).mp hsome
    rw [List.filterMap_cons_some (f := fun e : (ℕ × Hash32) × Unit => m.byHash[e.1.2]?) htx,
      List.map_cons, List.map_cons, ih hentries.2, hfee]

omit [Hashing] in
/-- The entries of the order stand by rising fee. -/
lemma pairwise_order (m : Mempool) :
    (m.order.toList.map fun e => e.1.1).Pairwise fun x y => x ≤ y := by
  refine List.pairwise_map.mpr (Std.ExtTreeMap.ordered_keys_toList.imp ?_)
  intro e e' hlt
  simp only [compareLex, compareOn, Ordering.then_eq_lt] at hlt
  rcases hlt with hlt | ⟨heq, -⟩
  · exact (Nat.compare_eq_lt.mp hlt).le
  · exact (Nat.compare_eq_eq.mp heq).le

/-- Both selectors choose the same fees if nothing has expired. -/
lemma Consistent.map_fee_select (h : m.Consistent) {pending : List Transaction}
    (hpending : pending.Perm (Table.values m.byHash)) {limit currentHeight : ℕ}
    (hvalid : ∀ tx ∈ pending, ¬ Expired tx currentHeight) :
    (selectForBlockPrioritized pending limit currentHeight).map (fun tx => tx.body.fee) =
      (m.selectForBlock limit).map fun tx => tx.body.fee := by
  have hall : unexpired pending currentHeight = pending :=
    List.filter_eq_self.mpr fun tx htx => decide_eq_true (hvalid tx htx)
  have hperm : (m.order.toList.map fun e => e.1.1).reverse.Perm
      (pending.map fun tx => tx.body.fee) := by
    have hfees := h.order_perm.map Prod.fst
    rw [List.map_map, List.map_map] at hfees
    exact (List.reverse_perm _).trans (hfees.trans (hpending.map _).symm)
  rw [selectForBlockPrioritized_eq, hall, map_best hperm (List.pairwise_reverse.mpr m.pairwise_order),
    selectForBlock, h.map_fee_filterMap, ← List.map_reverse, List.map_take]
  intro e he
  exact List.mem_reverse.mp (List.mem_of_mem_take he)

end Mempool

namespace PoolCall

open Mempool

section

variable [Hashing]

lemma onlyFiles_apply (m : Mempool) (call : PoolCall) : m.OnlyFiles (apply m call) := by
  cases call with
  | insert tx => exact keeps_insertInPlace tx m
  | removeCommitted transactions =>
    refine transactions.foldlRecOn _ (Std.Refl.refl m) fun m' h tx _ => ?_
    exact IsTrans.trans _ _ _ h (onlyFiles_discard tx.id tx)
  | evictExpired currentHeight =>
    refine List.foldlRecOn _ _ (Std.Refl.refl m) fun m' h hash _ => ?_
    split
    · exact h
    · exact IsTrans.trans _ _ _ h (onlyFiles_discard hash _)

/-- In every pool that calls lead to, no transaction is pending twice. -/
lemma nodup_values_foldl (calls : List PoolCall) :
    (Table.values (calls.foldl apply {}).byHash).Nodup := by
  have hfiles : Mempool.OnlyFiles {} (calls.foldl apply {}) :=
    calls.foldlRecOn _ (Std.Refl.refl _) fun m h call _ =>
      IsTrans.trans _ _ _ h (onlyFiles_apply m call)
  refine List.Nodup.of_map Transaction.id (Table.nodup_map_values fun hash tx htx => ?_)
  exact (hfiles hash tx htx).resolve_left (by simp)

/-- **Fee-optimal selection.**  In every pool that calls lead to, in whatever order its hash map
is iterated, the prioritized selection is fee-optimal; and if nothing has expired, its fees are
those of the other selector, among transactions whose ids tell them apart. -/
theorem run_selection (calls : List PoolCall) {pending : List Transaction}
    (hpending : pending.Perm (Table.values (calls.foldl apply {}).byHash))
    (limit currentHeight : ℕ) :
    FeeOptimal pending limit currentHeight
        (selectForBlockPrioritized pending limit currentHeight) ∧
      ({tx | ∃ call ∈ calls, tx ∈ call.transactions}.InjOn Transaction.id →
        (∀ tx ∈ pending, ¬ Expired tx currentHeight) →
        (selectForBlockPrioritized pending limit currentHeight).map (fun tx => tx.body.fee) =
          ((calls.foldl apply {}).selectForBlock limit).map fun tx => tx.body.fee) := by
  refine ⟨feeOptimal_select (hpending.nodup_iff.mpr (nodup_values_foldl calls)) _ _, ?_⟩
  intro hinj hvalid
  have hconsistent : (calls.foldl apply {}).Consistent :=
    consistent_foldl hinj (fun call hcall tx htx => ⟨call, hcall, htx⟩) consistent_empty
      fun hash tx htx => by simp at htx
  exact hconsistent.map_fee_select hpending hvalid

end

section

open Transparent

/-- Of the transfers, two are pending in the end, the dearer one first. -/
theorem pendingTransfers_selected :
    ((pendingTransfers.map insert).foldl apply {}).selectForBlock 5 =
        [pendingTransfers[1], pendingTransfers[2]] ∧
      FeeOptimal (Table.values ((pendingTransfers.map insert).foldl apply {}).byHash) 5 1
        (selectForBlockPrioritized
          (Table.values ((pendingTransfers.map insert).foldl apply {}).byHash) 5 1) ∧
      (selectForBlockPrioritized
          (Table.values ((pendingTransfers.map insert).foldl apply {}).byHash) 5 1).map
          (fun tx => tx.body.fee) =
        (((pendingTransfers.map insert).foldl apply {}).selectForBlock 5).map
          fun tx => tx.body.fee := by
  have hinj : {tx | ∃ call ∈ pendingTransfers.map insert, tx ∈ call.transactions}.InjOn
      Transaction.id := by
    refine injOn_pendingTransfers.mono ?_
    rintro tx ⟨call, hcall, htx⟩
    obtain ⟨tx', htx', rfl⟩ := List.mem_map.mp hcall
    rwa [List.mem_singleton.mp htx]
  have hrun := run_selection (pendingTransfers.map insert) (List.Perm.refl _) 5 1
  exact ⟨by decide +kernel, hrun.1, hrun.2 hinj (by decide +kernel)⟩

end

/-! ## Two nodes with the same pending transactions -/

/-- Fees decide what is chosen: of two unexpired transactions of one fee, none is chosen. -/
def FeesDecide (pending : List Transaction) (limit currentHeight : ℕ) : Prop :=
  ∀ a ∈ unexpired pending currentHeight, ∀ b ∈ unexpired pending currentHeight,
    a ≠ b → a.body.fee = b.body.fee →
      limit ≤ ((unexpired pending currentHeight).filter fun c => a.body.fee < c.body.fee).length

/-- Any order of the unexpired transactions is part of an order of all. -/
lemma perm_of_unexpired {pending r : List Transaction} {currentHeight : ℕ}
    (h : r.Perm (unexpired pending currentHeight)) :
    (r ++ pending.filter fun tx => Expired tx currentHeight).Perm pending ∧
      unexpired (r ++ pending.filter fun tx => Expired tx currentHeight) currentHeight = r := by
  constructor
  · have hsplit := List.filter_append_perm (fun tx => ¬ Expired tx currentHeight) pending
    simp only [decide_not, Bool.not_not] at hsplit
    refine (h.append_right _).trans ?_
    rw [unexpired]
    simpa using hsplit
  · have hr : r.filter (fun tx => ¬ Expired tx currentHeight) = r :=
      List.filter_eq_self.mpr fun tx htx =>
        decide_eq_true (mem_unexpired.mp (h.mem_iff.mp htx)).2
    rw [unexpired, List.filter_append, hr, List.filter_filter]
    simp

/-- **Determined selection.**  Pools with the same pending transactions, iterated in any order,
yield the same block exactly when fees decide what is chosen. -/
theorem run_selection_determined_iff [Hashing] (calls : List PoolCall) (limit currentHeight : ℕ) :
    (∀ (calls' : List PoolCall) (pending pending' : List Transaction),
      (Table.values (calls'.foldl apply {}).byHash).Perm
          (Table.values (calls.foldl apply {}).byHash) →
        pending.Perm (Table.values (calls.foldl apply {}).byHash) →
        pending'.Perm (Table.values (calls'.foldl apply {}).byHash) →
        selectForBlockPrioritized pending limit currentHeight =
          selectForBlockPrioritized pending' limit currentHeight) ↔
      FeesDecide (Table.values (calls.foldl apply {}).byHash) limit currentHeight := by
  generalize hvalues : Table.values (calls.foldl apply {}).byHash = values
  have hdecide : FeesDecide values limit currentHeight ↔
      NoChoice (fun tx : Transaction => tx.body.fee) limit (unexpired values currentHeight) := Iff.rfl
  rw [hdecide, ← best_determined_iff]
  constructor
  · intro h p q hp hq
    obtain ⟨hpfull, hpq⟩ := perm_of_unexpired hp
    obtain ⟨hqfull, hqp⟩ := perm_of_unexpired hq
    have hself : values.Perm (Table.values (calls.foldl apply {}).byHash) :=
      hvalues ▸ List.Perm.refl _
    have hselect := h calls _ _ hself.symm hpfull (hqfull.trans hself)
    rwa [selectForBlockPrioritized_eq, selectForBlockPrioritized_eq, hpq, hqp] at hselect
  · intro h calls' pending pending' hsame hp hq
    rw [selectForBlockPrioritized_eq, selectForBlockPrioritized_eq]
    exact h _ _ (hp.filter _) ((hq.trans hsame).filter _)

section

open Transparent

/-- Two transfers of one fee, by different senders. -/
def equalFees : List Transaction :=
  [payment [1] (address [9]) 5 0 10 none, payment [2] (address [9]) 7 0 10 none]

/-- Room for one of two transfers of one fee: the block holds the one that the hash map yields
first. -/
theorem selection_not_determined :
    ¬ ∀ (calls calls' : List PoolCall) (pending pending' : List Transaction)
        (limit currentHeight : ℕ),
      (Table.values (calls'.foldl apply {}).byHash).Perm
          (Table.values (calls.foldl apply {}).byHash) →
        pending.Perm (Table.values (calls.foldl apply {}).byHash) →
        pending'.Perm (Table.values (calls'.foldl apply {}).byHash) →
        selectForBlockPrioritized pending limit currentHeight =
          selectForBlockPrioritized pending' limit currentHeight := by
  intro h
  have hpool : (Table.values ((equalFees.map insert).foldl apply {}).byHash).Perm equalFees := by
    decide +kernel
  have hblock := h (equalFees.map insert) (equalFees.map insert) equalFees equalFees.reverse 1 1
    (List.Perm.refl _) hpool.symm ((List.reverse_perm _).trans hpool.symm)
  exact absurd hblock (by decide +kernel)

end

end PoolCall

end ZenoChain
