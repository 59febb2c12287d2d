/-
# The indexes of the mempool

The mempool keeps five indexes by hand.  Two operations are enough to say what happens to
them: a pending transaction is taken out of all of them, or a new one is entered into all of
them.  Every path of an insertion is made of these two, and so are the removal of committed
transactions and the eviction of expired ones.
-/
import ZenoChain.Base.Handler
import ZenoChain.Base.Table
import ZenoChain.Execution.Transparent
import ZenoChain.Node.Mempool

namespace ZenoChain

open Word

/-! ## Insertion on the shared pool -/

/-- A program on the shared pool. -/
abbrev PoolM := EStateM MempoolError Mempool

namespace Mempool

/-- Takes the replaced transaction out, one index after the other. -/
def replaceInPlace (tx : Transaction) (existingHash : Hash32) : PoolM PUnit := do
  let m ← get
  match m.byHash[existingHash]? with
  | none => throw (.panicked "indexed tx must exist")
  | some existing =>
    if tx.body.fee ≤ existing.body.fee then throw .replacementFeeTooLow
    else
      modify fun m => { m with order := m.order.erase (existing.body.fee, existingHash) }
      modify fun m => { m with byHash := m.byHash.erase existingHash }

/-- Evicts a transaction, one index after the other. -/
def evictInPlace (lowestFee : ℕ) (lowestHash : Hash32) : PoolM PUnit := do
  let m ← get
  match m.byHash[lowestHash]? with
  | none => return ⟨⟩
  | some evicted =>
    modify fun m => { m with byHash := m.byHash.erase lowestHash }
    modify fun m =>
      { m with bySenderNonce := m.bySenderNonce.erase (evicted.body.sender, evicted.body.nonce) }
    modify fun m => { m with order := m.order.erase (lowestFee, lowestHash) }
    let m ← get
    match m.bySenderCount[evicted.body.sender]? with
    | none => throw (.panicked "sender count must exist for evicted tx")
    | some count =>
      modify fun m =>
        { m with
          bySenderCount := m.bySenderCount.insert evicted.body.sender (saturatingSub count 1) }

/-- Makes room in a full pool. -/
def makeRoomInPlace (tx : Transaction) : PoolM PUnit := do
  let m ← get
  if m.byHash.size < maxMempoolSize then return ⟨⟩
  else
    match m.order.toList.head? with
    | none => throw .full
    | some ((lowestFee, lowestHash), _) =>
      if tx.body.fee ≤ lowestFee then throw .full
      else evictInPlace lowestFee lowestHash

/-- Inserts a transaction into the shared pool; an error leaves behind what was changed before. -/
def insertInPlace [Hashing] (tx : Transaction) : PoolM PUnit := do
  let m ← get
  if m.byHash.contains tx.id then throw .duplicate
  else
    match m.bySenderNonce[(tx.body.sender, tx.body.nonce)]? with
    | some existingHash =>
      replaceInPlace tx existingHash
      modify fun m => m.enter tx tx.id true
    | none =>
      Handler.ofExcept (m.checkSender tx)
      makeRoomInPlace tx
      modify fun m => m.enter tx tx.id false

/-- An error that is a failed `expect`. -/
def IsPanic : MempoolError → Prop
  | .panicked _ => True
  | _ => False

lemma replaceInPlace_run (m : Mempool) (tx : Transaction) (existingHash : Hash32) :
    replaceInPlace tx existingHash m = match m.removeReplaced tx existingHash with
      | .ok m' => .ok ⟨⟩ m'
      | .error err => .error err m := by
  rw [replaceInPlace, removeReplaced, Handler.bind_ok (Handler.get_run m)]
  rcases m.byHash[existingHash]? with _ | existing
  · rfl
  · dsimp only
    split <;> rfl

lemma makeRoomInPlace_run (m : Mempool) (tx : Transaction)
    (h : ∀ err, m.makeRoom tx = .error err → ¬ IsPanic err) :
    makeRoomInPlace tx m = match m.makeRoom tx with
      | .ok m' => .ok ⟨⟩ m'
      | .error err => .error err m := by
  rw [makeRoom] at h ⊢
  rw [makeRoomInPlace, Handler.bind_ok (Handler.get_run m)]
  split_ifs at h ⊢
  · rfl
  · rcases hhead : m.order.toList.head? with _ | ⟨⟨lowestFee, lowestHash⟩, _⟩
    · rfl
    · rw [hhead] at h
      dsimp only at h ⊢
      split_ifs at h ⊢
      · rfl
      · rw [evictInPlace, Handler.bind_ok (Handler.get_run m)]
        rcases hlowest : m.byHash[lowestHash]? with _ | evicted
        · rfl
        · rw [hlowest] at h
          dsimp only at h ⊢
          rw [Handler.bind_ok (Handler.modify_run _ _), Handler.bind_ok (Handler.modify_run _ _),
            Handler.bind_ok (Handler.modify_run _ _), Handler.bind_ok (Handler.get_run _)]
          dsimp only
          rcases hcount : m.bySenderCount[evicted.body.sender]? with _ | count
          · rw [hcount] at h
            exact absurd trivial (h _ rfl)
          · rfl

/-- On the shared pool, the insertion does what it does on a value of its own, as long as no
`expect` fails. -/
lemma insertInPlace_run [Hashing] (m : Mempool) (tx : Transaction)
    (h : ∀ err, m.insert tx = .error err → ¬ IsPanic err) :
    insertInPlace tx m = match m.insert tx with
      | .ok m' => .ok ⟨⟩ m'
      | .error err => .error err m := by
  simp only [insert] at h ⊢
  rw [insertInPlace, Handler.bind_ok (Handler.get_run m)]
  split_ifs at h ⊢
  · rfl
  · rcases hkey : m.bySenderNonce[(tx.body.sender, tx.body.nonce)]? with _ | existingHash
    · rw [hkey] at h
      dsimp only at h ⊢
      rcases hsender : m.checkSender tx with err | ⟨⟩
      · rfl
      · rw [hsender] at h
        have hroom := m.makeRoomInPlace_run tx fun err herr => h err (by rw [herr]; rfl)
        rw [Handler.ofExcept_ok, Handler.bind_ok (Handler.pure_run _ _)]
        rcases hmake : m.makeRoom tx with err | m'
        · rw [hmake] at hroom
          rw [Handler.bind_error hroom]
          rfl
        · rw [hmake] at hroom
          rw [Handler.bind_ok hroom]
          rfl
    · dsimp only
      have hreplace := m.replaceInPlace_run tx existingHash
      rcases hremove : m.removeReplaced tx existingHash with err | m'
      · rw [hremove] at hreplace
        rw [Handler.bind_error hreplace]
        rfl
      · rw [hremove] at hreplace
        rw [Handler.bind_ok hreplace]
        rfl

/-! ## Consistent indexes -/

/-- The number of pending transactions of a sender. -/
def pendingOf (m : Mempool) (sender : Address) : ℕ :=
  Table.total (fun tx => if tx.body.sender = sender then 1 else 0) m.byHash

/-- The five indexes agree, and the limits are kept. -/
structure Consistent [Hashing] (m : Mempool) : Prop where
  ids : ∀ (hash : Hash32) (tx : Transaction), m.byHash[hash]? = some tx → tx.id = hash
  order : ∀ (fee : ℕ) (hash : Hash32), m.order[(fee, hash)]?.isSome ↔
    ∃ tx, m.byHash[hash]? = some tx ∧ tx.body.fee = fee
  nonces : ∀ (sender : Address) (nonce : ℕ) (hash : Hash32),
    m.bySenderNonce[(sender, nonce)]? = some hash ↔
      ∃ tx, m.byHash[hash]? = some tx ∧ tx.body.sender = sender ∧ tx.body.nonce = nonce
  counts : ∀ sender, m.bySenderCount.getD sender 0 = m.pendingOf sender
  perSender : ∀ sender, m.pendingOf sender ≤ maxPerSender
  size : m.byHash.size ≤ maxMempoolSize

lemma pendingOf_empty (sender : Address) : pendingOf {} sender = 0 := rfl

/-- The empty pool. -/
lemma consistent_empty [Hashing] : Consistent {} where
  ids := by simp
  order := by simp
  nonces := by simp
  counts := fun sender => by simp [pendingOf_empty]
  perSender := fun sender => by simp [pendingOf_empty]
  size := by simp

lemma pendingOf_erase (m m' : Mempool) {hash : Hash32} {tx : Transaction}
    (hpending : m.byHash[hash]? = some tx) (hhash : m'.byHash = m.byHash.erase hash) (a : Address) :
    m.pendingOf a = m'.pendingOf a + if tx.body.sender = a then 1 else 0 := by
  have htotal := Table.total_eq_share (fun tx : Transaction => if tx.body.sender = a then 1 else 0)
    m.byHash hash
  rw [hpending, ← hhash] at htotal
  rw [pendingOf, pendingOf, htotal, Nat.add_comm]
  rfl

lemma pendingOf_insert (m m' : Mempool) {hash : Hash32} {tx : Transaction}
    (hnew : m.byHash[hash]? = none) (hhash : m'.byHash = m.byHash.insert hash tx) (a : Address) :
    m'.pendingOf a = m.pendingOf a + if tx.body.sender = a then 1 else 0 := by
  have htotal := Table.total_insert (fun tx : Transaction => if tx.body.sender = a then 1 else 0)
    m.byHash hash tx
  rw [hnew, ← hhash] at htotal
  exact htotal

/-- **Taking out.**  A pending transaction is taken out of all indexes. -/
theorem Consistent.takeOut [Hashing] {m m' : Mempool} (h : m.Consistent) {hash : Hash32}
    {tx : Transaction} (hpending : m.byHash[hash]? = some tx)
    (hhash : m'.byHash = m.byHash.erase hash)
    (hnonce : m'.bySenderNonce = m.bySenderNonce.erase (tx.body.sender, tx.body.nonce))
    (horder : m'.order = m.order.erase (tx.body.fee, hash))
    (hcount : ∀ a, m.bySenderCount.getD a 0 =
      m'.bySenderCount.getD a 0 + if tx.body.sender = a then 1 else 0) : m'.Consistent := by
  have hpendingOf := pendingOf_erase m m' hpending hhash
  refine ⟨fun hash' tx' htx' => ?_, fun fee hash' => ?_, fun sender nonce hash' => ?_, fun a => ?_,
    fun a => ?_, ?_⟩
  · rw [hhash, Table.getElem?_erase] at htx'
    split at htx'
    · cases htx'
    · exact h.ids hash' tx' htx'
  · rw [horder, hhash, Table.getElem?_erase, Table.getElem?_erase]
    by_cases hsame : hash' = hash
    · subst hsame
      rw [if_pos rfl]
      by_cases hfee : fee = tx.body.fee
      · simp [hfee]
      · -- The hash stands in the order with the fee of its transaction only.
        have hnot : ¬ m.order[(fee, hash')]?.isSome := by
          rw [h.order, hpending]
          rintro ⟨tx', htx', rfl⟩
          exact hfee (Option.some.inj htx' ▸ rfl)
        simp [hfee, hnot]
    · simp only [Prod.mk.injEq, hsame, and_false, if_false]
      exact h.order fee hash'
  · rw [hnonce, hhash, Table.getElem?_erase, Table.getElem?_erase]
    have hkey := (h.nonces tx.body.sender tx.body.nonce hash).mpr ⟨tx, hpending, rfl, rfl⟩
    by_cases hsame : hash' = hash
    · subst hsame
      rw [if_pos rfl]
      by_cases hmatch : (sender, nonce) = (tx.body.sender, tx.body.nonce)
      · simp [hmatch]
      · have hnot : ¬ m.bySenderNonce[(sender, nonce)]? = some hash' := by
          rw [h.nonces, hpending]
          rintro ⟨tx', htx', rfl, rfl⟩
          exact hmatch (Option.some.inj htx' ▸ rfl)
        simp [hnot]
    · rw [if_neg hsame]
      by_cases hmatch : (sender, nonce) = (tx.body.sender, tx.body.nonce)
      · -- Under the freed key stood the hash that is taken out.
        have hnot : ¬ m.bySenderNonce[(sender, nonce)]? = some hash' := by
          rw [hmatch, hkey]
          exact fun heq => hsame (Option.some.inj heq).symm
        rw [if_pos hmatch, ← h.nonces]
        simp [hnot]
      · rw [if_neg hmatch]
        exact h.nonces sender nonce hash'
  · have := h.counts a
    have := hcount a
    have := hpendingOf a
    omega
  · have := h.perSender a
    have := hpendingOf a
    omega
  · rw [hhash, Std.ExtTreeMap.size_erase]
    have := h.size
    split <;> omega

/-- **Entering.**  A new transaction with a free sender and nonce is entered into all indexes. -/
theorem Consistent.putIn [Hashing] {m m' : Mempool} (h : m.Consistent) {tx : Transaction}
    (hnew : m.byHash[tx.id]? = none)
    (hfree : m.bySenderNonce[(tx.body.sender, tx.body.nonce)]? = none)
    (hhash : m'.byHash = m.byHash.insert tx.id tx)
    (hnonce : m'.bySenderNonce = m.bySenderNonce.insert (tx.body.sender, tx.body.nonce) tx.id)
    (horder : m'.order = m.order.insert (tx.body.fee, tx.id) ())
    (hcount : ∀ a, m'.bySenderCount.getD a 0 =
      m.bySenderCount.getD a 0 + if tx.body.sender = a then 1 else 0)
    (hlimit : m.pendingOf tx.body.sender < maxPerSender) (hroom : m.byHash.size < maxMempoolSize) :
    m'.Consistent := by
  have hpendingOf := pendingOf_insert m m' hnew hhash
  refine ⟨fun hash' tx' htx' => ?_, fun fee hash' => ?_, fun sender nonce hash' => ?_, fun a => ?_,
    fun a => ?_, ?_⟩
  · rw [hhash, Table.getElem?_insert] at htx'
    split at htx'
    · rename_i hsame
      rw [← Option.some.inj htx', hsame]
    · exact h.ids hash' tx' htx'
  · rw [horder, hhash, Table.getElem?_insert, Table.getElem?_insert]
    by_cases hsame : hash' = tx.id
    · subst hsame
      have hnot : ¬ m.order[(fee, tx.id)]?.isSome := by
        rw [h.order, hnew]
        simp
      by_cases hfee : fee = tx.body.fee
      · simp [hfee]
      · simp [hfee, hnot, eq_comm]
    · simp only [Prod.mk.injEq, hsame, and_false, if_false]
      exact h.order fee hash'
  · rw [hnonce, hhash, Table.getElem?_insert, Table.getElem?_insert]
    by_cases hmatch : (sender, nonce) = (tx.body.sender, tx.body.nonce)
    · obtain ⟨rfl, rfl⟩ := Prod.mk.inj hmatch
      have hnone : ∀ tx', m.byHash[hash']? = some tx' →
          ¬ (tx'.body.sender = tx.body.sender ∧ tx'.body.nonce = tx.body.nonce) := by
        intro tx' htx' hsame
        have hkey := (h.nonces tx.body.sender tx.body.nonce hash').mpr ⟨tx', htx', hsame⟩
        rw [hfree] at hkey
        cases hkey
      rw [if_pos rfl]
      by_cases hsame : hash' = tx.id
      · simp [hsame]
      · rw [if_neg hsame]
        constructor
        · exact fun heq => absurd (Option.some.inj heq).symm hsame
        · rintro ⟨tx', htx', hsender⟩
          exact absurd hsender (hnone tx' htx')
    · rw [if_neg hmatch, h.nonces]
      by_cases hsame : hash' = tx.id
      · subst hsame
        rw [if_pos rfl, hnew]
        have hnot : ¬ (tx.body.sender = sender ∧ tx.body.nonce = nonce) := by
          rintro ⟨rfl, rfl⟩
          exact hmatch rfl
        simpa using hnot
      · rw [if_neg hsame]
  · rw [hcount, hpendingOf, h.counts]
  · rw [hpendingOf]
    split
    · rename_i ha
      rw [← ha]
      omega
    · exact h.perSender a
  · rw [hhash, Std.ExtTreeMap.size_insert]
    split <;> omega

/-! ## The operations -/

variable [Hashing] {m m' : Mempool} {tx : Transaction} {hash : Hash32}

/-- A sender with a pending transaction has a count. -/
lemma Consistent.count_pos (h : m.Consistent) (hpending : m.byHash[hash]? = some tx) :
    ∃ count, m.bySenderCount[tx.body.sender]? = some count ∧ 0 < count := by
  have hcounts := h.counts tx.body.sender
  have hshare := Table.share_le_total
    (fun tx' : Transaction => if tx'.body.sender = tx.body.sender then 1 else 0) m.byHash hash
  have hpos : 0 < m.pendingOf tx.body.sender := by
    rw [hpending, Option.map_some, if_pos rfl] at hshare
    exact hshare
  rw [Std.ExtTreeMap.getD_eq_getD_getElem?] at hcounts
  rcases hcount : m.bySenderCount[tx.body.sender]? with _ | count
  · rw [hcount, Option.getD_none] at hcounts
    omega
  · rw [hcount, Option.getD_some] at hcounts
    exact ⟨count, rfl, by omega⟩

lemma getD_uncount (h : m.Consistent) (hpending : m.byHash[hash]? = some tx) (a : Address) :
    m.bySenderCount.getD a 0 =
      (m.uncount tx.body.sender).getD a 0 + if tx.body.sender = a then 1 else 0 := by
  obtain ⟨count, hcount, hpos⟩ := h.count_pos hpending
  have hsub : saturatingSub count 1 + 1 = count := by
    rw [saturatingSub]
    omega
  rw [uncount, hcount]
  dsimp only
  by_cases ha : tx.body.sender = a
  · subst ha
    rw [if_pos rfl, Table.getD_of_getElem? hcount]
    split
    · rename_i hzero
      rw [Table.getD_erase, if_pos rfl, ← hsub, hzero]
    · rw [Table.getD_insert, if_pos rfl, hsub]
  · rw [if_neg ha, Nat.add_zero]
    split
    · rw [Table.getD_erase, if_neg (Ne.symm ha)]
    · rw [Table.getD_insert, if_neg (Ne.symm ha)]

lemma Consistent.replace (h : m.Consistent) (hnew : m.byHash[tx.id]? = none) {existingHash : Hash32}
    (hkey : m.bySenderNonce[(tx.body.sender, tx.body.nonce)]? = some existingHash) :
    (∀ m', m.removeReplaced tx existingHash = .ok m' → (m'.enter tx tx.id true).Consistent ∧
      m'.byHash = m.byHash.erase existingHash) ∧
    ∀ err, m.removeReplaced tx existingHash = .error err → ¬ IsPanic err := by
  obtain ⟨existing, hpending, hsender, hnonce⟩ := (h.nonces _ _ _).mp hkey
  rw [removeReplaced, hpending]
  dsimp only
  split
  · refine ⟨nofun, fun err herr => ?_⟩
    cases herr
    exact id
  · refine ⟨fun m' hm' => ?_, nofun⟩
    cases hm'
    refine ⟨?_, rfl⟩
    -- The replacement takes the old transaction out and puts the new one in its place.
    let out : Mempool :=
      { m with
        byHash := m.byHash.erase existingHash
        bySenderNonce := m.bySenderNonce.erase (existing.body.sender, existing.body.nonce)
        order := m.order.erase (existing.body.fee, existingHash)
        bySenderCount := m.uncount existing.body.sender }
    have hout : out.Consistent := h.takeOut hpending rfl rfl rfl (getD_uncount h hpending)
    have hcount := getD_uncount h hpending
    have hpendingOf := pendingOf_erase m out hpending rfl tx.body.sender
    have hlimit := h.perSender tx.body.sender
    rw [if_pos hsender] at hpendingOf
    refine hout.putIn ?_ ?_ rfl ?_ rfl (fun a => ?_) (by omega) ?_
    · show (m.byHash.erase existingHash)[tx.id]? = none
      rw [Table.getElem?_erase, hnew, ite_self]
    · show (m.bySenderNonce.erase (existing.body.sender, existing.body.nonce))[_]? = none
      rw [Table.getElem?_erase, hsender, hnonce, if_pos rfl]
    · show m.bySenderNonce.insert _ _ = (m.bySenderNonce.erase _).insert _ _
      rw [hsender, hnonce, Table.insert_erase]
    · show m.bySenderCount.getD a 0 = (m.uncount existing.body.sender).getD a 0 + _
      rw [hcount a, hsender]
    · show (m.byHash.erase existingHash).size < maxMempoolSize
      have hsize := h.size
      have hcontains : m.byHash.contains existingHash := by
        rw [Std.ExtTreeMap.contains_eq_isSome_getElem?, hpending]
        rfl
      rw [Std.ExtTreeMap.size_erase, if_pos hcontains, maxMempoolSize]
      rw [maxMempoolSize] at hsize
      omega

lemma Consistent.makeRoom (h : m.Consistent) (tx : Transaction) :
    (∀ m', m.makeRoom tx = .ok m' → m'.Consistent ∧ m'.byHash.size < maxMempoolSize ∧
      (∀ (hash : Hash32) (tx' : Transaction),
        m'.byHash[hash]? = some tx' → m.byHash[hash]? = some tx') ∧
      (∀ (key : Address × ℕ) (hash : Hash32),
        m'.bySenderNonce[key]? = some hash → m.bySenderNonce[key]? = some hash) ∧
      ∀ a, m'.pendingOf a ≤ m.pendingOf a) ∧
    ∀ err, m.makeRoom tx = .error err → ¬ IsPanic err := by
  rw [Mempool.makeRoom]
  split_ifs with hsize
  · refine ⟨fun m' hm' => ?_, nofun⟩
    cases hm'
    exact ⟨h, hsize, fun _ _ => id, fun _ _ => id, fun _ => le_rfl⟩
  · split
    · refine ⟨nofun, fun err herr => ?_⟩
      cases herr
      exact id
    · rename_i lowestFee lowestHash _ hhead
      have hentry : m.order[(lowestFee, lowestHash)]?.isSome := by
        rw [Table.mem_toList_iff.mp (List.mem_of_mem_head? hhead)]
        rfl
      obtain ⟨evicted, hpending, rfl⟩ := (h.order _ _).mp hentry
      obtain ⟨count, hcount, hpos⟩ := h.count_pos hpending
      split_ifs
      · refine ⟨nofun, fun err herr => ?_⟩
        cases herr
        exact id
      · rw [hpending]
        dsimp only
        rw [hcount]
        refine ⟨fun m' hm' => ?_, nofun⟩
        cases hm'
        refine ⟨h.takeOut hpending rfl rfl rfl fun a => ?_, ?_, fun hash tx' htx' => ?_,
          fun key hash hkey => ?_, fun a => ?_⟩
        · dsimp only
          rw [Table.getD_insert]
          by_cases ha : evicted.body.sender = a
          · subst ha
            rw [if_pos rfl, if_pos rfl, Table.getD_of_getElem? hcount, saturatingSub]
            omega
          · rw [if_neg ha, if_neg (Ne.symm ha), Nat.add_zero]
        · have hcontains : m.byHash.contains lowestHash := by
            rw [Std.ExtTreeMap.contains_eq_isSome_getElem?, hpending]
            rfl
          have hfull := h.size
          rw [Std.ExtTreeMap.size_erase, if_pos hcontains, maxMempoolSize]
          rw [maxMempoolSize] at hfull
          omega
        · dsimp only at htx'
          rw [Table.getElem?_erase] at htx'
          split at htx'
          · cases htx'
          · exact htx'
        · dsimp only at hkey
          rw [Table.getElem?_erase] at hkey
          split at hkey
          · cases hkey
          · exact hkey
        · have hless : ∀ m' : Mempool, m'.byHash = m.byHash.erase lowestHash →
              m'.pendingOf a ≤ m.pendingOf a := by
            intro m' hm'
            rw [pendingOf_erase m m' hpending hm' a]
            exact Nat.le_add_right _ _
          exact hless _ rfl

/-- A transaction that is pending under its hash is discarded from all indexes. -/
lemma Consistent.discard (h : m.Consistent) (hpending : ∀ tx', m.byHash[hash]? = some tx' → tx' = tx) :
    (m.discard hash tx).Consistent := by
  rw [Mempool.discard]
  split
  · rename_i hmem
    rw [Std.ExtTreeMap.contains_eq_isSome_getElem?, Option.isSome_iff_exists] at hmem
    obtain ⟨tx', htx'⟩ := hmem
    obtain rfl := hpending tx' htx'
    exact h.takeOut htx' rfl rfl rfl (getD_uncount h htx')
  · exact h

/-- **An insertion on consistent indexes**: they stay consistent, the pending transactions are
old ones or the new one, and no `expect` fails. -/
theorem Consistent.insert (h : m.Consistent) (tx : Transaction) :
    (∀ m', m.insert tx = .ok m' → m'.Consistent ∧ ∀ (hash : Hash32) (tx' : Transaction),
      m'.byHash[hash]? = some tx' → tx' = tx ∨ m.byHash[hash]? = some tx') ∧
    ∀ err, m.insert tx = .error err → ¬ IsPanic err := by
  -- What is entered is new or was there.
  have henter : ∀ (m' : Mempool) (isReplacement : Bool), (∀ (hash : Hash32) (tx' : Transaction),
      m'.byHash[hash]? = some tx' → m.byHash[hash]? = some tx') →
      ∀ (hash : Hash32) (tx' : Transaction), (m'.enter tx tx.id isReplacement).byHash[hash]? = some tx' →
        tx' = tx ∨ m.byHash[hash]? = some tx' := by
    intro m' isReplacement hold hash tx' htx'
    rw [enter, Table.getElem?_insert] at htx'
    split at htx'
    · exact .inl (Option.some.inj htx').symm
    · exact .inr (hold hash tx' htx')
  simp only [Mempool.insert]
  split_ifs with hcontains
  · refine ⟨nofun, fun err herr => ?_⟩
    cases herr
    exact id
  · have hnew := Table.getElem?_eq_none_of_not_contains hcontains
    rcases hkey : m.bySenderNonce[(tx.body.sender, tx.body.nonce)]? with _ | existingHash
    · dsimp only
      rcases hsender : m.checkSender tx with err | ⟨⟩
      · refine ⟨nofun, fun err' herr => ?_⟩
        cases herr
        rw [checkSender] at hsender
        split_ifs at hsender <;> cases hsender <;> exact id
      · obtain ⟨hok, herror⟩ := h.makeRoom tx
        rcases hroom : m.makeRoom tx with err | m₁
        · refine ⟨nofun, fun err' herr => ?_⟩
          cases herr
          exact herror err hroom
        · obtain ⟨h₁, hsize, hhash, hnonce, hpendingOf⟩ := hok m₁ hroom
          refine ⟨fun m' hm' => ?_, nofun⟩
          cases hm'
          refine ⟨h₁.putIn ?_ ?_ rfl rfl rfl (fun a => ?_) ?_ hsize, henter m₁ false hhash⟩
          · rcases htx : m₁.byHash[tx.id]? with _ | tx'
            · rfl
            · rw [hhash _ _ htx] at hnew
              cases hnew
          · rcases hfree : m₁.bySenderNonce[(tx.body.sender, tx.body.nonce)]? with _ | hash'
            · rfl
            · rw [hnonce _ _ hfree] at hkey
              cases hkey
          · show (m₁.bySenderCount.insert tx.body.sender _).getD a 0 = _
            rw [Table.getD_insert]
            by_cases ha : tx.body.sender = a
            · subst ha
              rw [if_pos rfl, if_pos rfl]
            · rw [if_neg ha, if_neg (Ne.symm ha), Nat.add_zero]
          · -- The limit was checked before a transaction of the sender may have been evicted.
            rw [checkSender] at hsender
            split_ifs at hsender with hlimit
            have := hpendingOf tx.body.sender
            have := h.counts tx.body.sender
            omega
    · dsimp only
      obtain ⟨hok, herror⟩ := h.replace hnew hkey
      rcases hreplace : m.removeReplaced tx existingHash with err | m₁
      · refine ⟨nofun, fun err' herr => ?_⟩
        cases herr
        exact herror err hreplace
      · obtain ⟨hentered, herase⟩ := hok m₁ hreplace
        refine ⟨fun m' hm' => ?_, nofun⟩
        cases hm'
        refine ⟨hentered, henter m₁ true fun hash tx' htx' => ?_⟩
        rw [herase, Table.getElem?_erase] at htx'
        split at htx'
        · cases htx'
        · exact htx'

/-! ## Runs of the pool -/

/-- Every pending transaction is one of a set. -/
def Within (m : Mempool) (known : Set Transaction) : Prop :=
  ∀ (hash : Hash32) (tx : Transaction), m.byHash[hash]? = some tx → tx ∈ known

omit [Hashing] in
lemma getElem?_discard {hash' : Hash32} {tx' : Transaction}
    (h : (m.discard hash tx).byHash[hash']? = some tx') : m.byHash[hash']? = some tx' := by
  rw [Mempool.discard] at h
  split at h
  · dsimp only at h
    rw [Table.getElem?_erase] at h
    split at h
    · cases h
    · exact h
  · exact h

variable {known : Set Transaction}

/-- A transaction with the hash of a pending one is that one, among transactions whose ids tell
them apart. -/
lemma Consistent.eq_of_id (h : m.Consistent) (hwithin : m.Within known)
    (hinj : known.InjOn Transaction.id) (htx : tx ∈ known) {tx' : Transaction}
    (hpending : m.byHash[tx.id]? = some tx') : tx' = tx :=
  hinj (hwithin _ _ hpending) htx (h.ids _ _ hpending)

lemma Consistent.removeCommitted (h : m.Consistent) (hwithin : m.Within known)
    (hinj : known.InjOn Transaction.id) {txs : List Transaction} (htxs : ∀ tx ∈ txs, tx ∈ known) :
    (m.removeCommitted txs).Consistent ∧ (m.removeCommitted txs).Within known := by
  induction txs generalizing m with
  | nil => exact ⟨h, hwithin⟩
  | cons tx txs ih =>
    rw [List.forall_mem_cons] at htxs
    have hdiscard := h.discard fun tx' => h.eq_of_id hwithin hinj htxs.1
    exact ih hdiscard (fun hash tx' htx' => hwithin hash tx' (getElem?_discard htx')) htxs.2

lemma Consistent.evictExpired (h : m.Consistent) (hwithin : m.Within known) (currentHeight : ℕ) :
    (m.evictExpired currentHeight).Consistent ∧ (m.evictExpired currentHeight).Within known := by
  rw [Mempool.evictExpired]
  generalize (m.byHash.toList.filter _).map Prod.fst = expired
  induction expired generalizing m with
  | nil => exact ⟨h, hwithin⟩
  | cons hash expired ih =>
    rw [List.foldl_cons]
    rcases hpending : m.byHash[hash]? with _ | tx
    · exact ih h hwithin
    · have hdiscard := h.discard fun tx' htx' => Option.some.inj (htx'.symm.trans hpending)
      exact ih hdiscard fun hash' tx' htx' => hwithin hash' tx' (getElem?_discard htx')

end Mempool

/-- A call on the shared pool. -/
inductive PoolCall
  | insert (tx : Transaction)
  | removeCommitted (transactions : List Transaction)
  | evictExpired (currentHeight : ℕ)

namespace PoolCall

/-- The transactions that a call hands over. -/
def transactions : PoolCall → List Transaction
  | insert tx => [tx]
  | removeCommitted transactions => transactions
  | evictExpired _ => []

variable [Hashing]

/-- The pool after a call; after an insertion that fails, with what it has changed by then. -/
def apply (m : Mempool) : PoolCall → Mempool
  | insert tx => Handler.final (Mempool.insertInPlace tx m)
  | removeCommitted transactions => m.removeCommitted transactions
  | evictExpired currentHeight => m.evictExpired currentHeight

/-- A call keeps the indexes consistent. -/
lemma consistent_apply {m : Mempool} {known : Set Transaction} (h : m.Consistent)
    (hwithin : m.Within known) (hinj : known.InjOn Transaction.id) (call : PoolCall)
    (hcall : ∀ tx ∈ call.transactions, tx ∈ known) :
    (apply m call).Consistent ∧ (apply m call).Within known := by
  cases call with
  | insert tx =>
    obtain ⟨hok, herror⟩ := h.insert tx
    rw [apply, m.insertInPlace_run tx herror]
    rcases hinsert : m.insert tx with err | m'
    · exact ⟨h, hwithin⟩
    · obtain ⟨hconsistent, hold⟩ := hok m' hinsert
      refine ⟨hconsistent, fun hash tx' htx' => ?_⟩
      rcases hold hash tx' htx' with rfl | hpending
      · exact hcall tx' List.mem_cons_self
      · exact hwithin hash tx' hpending
  | removeCommitted transactions => exact h.removeCommitted hwithin hinj hcall
  | evictExpired currentHeight => exact h.evictExpired hwithin currentHeight

/-- The indexes are consistent after any calls with transactions whose ids tell them apart. -/
lemma consistent_foldl {known : Set Transaction} (hinj : known.InjOn Transaction.id)
    {calls : List PoolCall} (hcalls : ∀ call ∈ calls, ∀ tx ∈ call.transactions, tx ∈ known)
    {m : Mempool} (h : m.Consistent) (hwithin : m.Within known) :
    (calls.foldl apply m).Consistent := by
  induction calls generalizing m with
  | nil => exact h
  | cons call calls ih =>
    rw [List.forall_mem_cons] at hcalls
    obtain ⟨happly, hstill⟩ := consistent_apply h hwithin hinj call hcalls.1
    exact ih hcalls.2 happly hstill

/-- **Mempool index consistency.**  After any calls on the empty pool, with transactions whose
ids tell them apart, the indexes agree and the limits are kept; and an insertion into that pool
either succeeds or changes nothing and fails no `expect`. -/
theorem run_consistent (calls : List PoolCall)
    (hinj : {tx | ∃ call ∈ calls, tx ∈ call.transactions}.InjOn Transaction.id) :
    (calls.foldl apply {}).Consistent ∧
      ∀ tx err m', Mempool.insertInPlace tx (calls.foldl apply {}) = .error err m' →
        m' = calls.foldl apply {} ∧ ¬ Mempool.IsPanic err := by
  have hconsistent : (calls.foldl apply {}).Consistent :=
    consistent_foldl hinj (fun call hcall tx htx => ⟨call, hcall, htx⟩) Mempool.consistent_empty
      fun hash tx htx => by simp at htx
  refine ⟨hconsistent, fun tx err m' hrun => ?_⟩
  obtain ⟨-, herror⟩ := hconsistent.insert tx
  rw [Mempool.insertInPlace_run _ tx herror] at hrun
  rcases hinsert : (calls.foldl apply {}).insert tx with err' | m''
  · rw [hinsert] at hrun
    cases hrun
    exact ⟨rfl, herror _ hinsert⟩
  · rw [hinsert] at hrun
    cases hrun

end PoolCall

/-! ## A run through every path -/

section

open Transparent

/-- A transfer, one of the same nonce with a higher fee, and one of another sender. -/
def pendingTransfers : List Transaction :=
  [payment [1] (address [9]) 5 0 10 none, payment [1] (address [9]) 5 0 11 none,
   payment [2] (address [9]) 7 3 10 none]

lemma injOn_pendingTransfers : {tx | tx ∈ pendingTransfers}.InjOn Transaction.id := by
  have hids : ∀ tx ∈ pendingTransfers, ∀ tx' ∈ pendingTransfers, tx.id = tx'.id → tx = tx' := by
    decide +kernel
  exact fun tx htx tx' htx' => hids tx htx tx' htx'

/-- The transfers are entered in turn, the second one in place of the first; then the last two
are committed, and the first two are entered again. -/
def poolCalls : List PoolCall :=
  pendingTransfers.map .insert ++
    [.removeCommitted (pendingTransfers.drop 1), .evictExpired 8, .insert pendingTransfers[0],
     .insert pendingTransfers[1]]

/-- The pool after these calls. -/
theorem poolCalls_consistent :
    (poolCalls.foldl PoolCall.apply {}).byHash.size = 1 ∧
      (poolCalls.foldl PoolCall.apply {}).Consistent := by
  have hinj : {tx | ∃ call ∈ poolCalls, tx ∈ call.transactions}.InjOn Transaction.id := by
    have hknown : ∀ tx, (∃ call ∈ poolCalls, tx ∈ call.transactions) → tx ∈ pendingTransfers := by
      rintro tx ⟨call, hcall, htx⟩
      simp only [poolCalls, pendingTransfers, List.map_cons, List.map_nil, List.cons_append,
        List.nil_append, List.mem_cons, List.not_mem_nil, or_false] at hcall
      rcases hcall with rfl | rfl | rfl | rfl | rfl | rfl | rfl <;>
        simp_all [PoolCall.transactions, pendingTransfers]
    exact injOn_pendingTransfers.mono hknown
  exact ⟨by decide +kernel, (PoolCall.run_consistent poolCalls hinj).1⟩

end

end ZenoChain
