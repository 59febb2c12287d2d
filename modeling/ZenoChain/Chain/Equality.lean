/-
# The two backends side by side

The memory backend takes the latest block and the latest epoch transition from its ordered maps;
the database keeps copies of the last ones written.  Outside the log the backends answer alike
exactly as long as these are the same: blocks and transitions are written in ascending order, and
pruning leaves the latest block.
-/
import ZenoChain.Base.Trace
import ZenoChain.Chain.Backends
import ZenoChain.Execution.Transparent

namespace ZenoChain

namespace Table

/-- The value of the greatest key, after a value has been written under its own key. -/
lemma last_insert_iff {ν : Type} {t : BTreeMap ℕ ν} (key : ν → ℕ) {v : ν}
    (htidy : ∀ (k : ℕ) (w : ν), t[k]? = some w → key w = k) :
    some v = (last (t.insert (key v) v)).map Prod.snd ↔
      ∀ k : ℕ, t[k]?.isSome → k ≤ key v := by
  constructor
  · intro hlast k hk
    obtain ⟨e, he, rfl⟩ := Option.map_eq_some_iff.mp hlast.symm
    obtain ⟨hmem, hmax⟩ := last_eq_some_iff.mp he
    -- The value stands under its own key, which is the greatest one.
    have hkey : e.1 = key e.2 := by
      rw [getElem?_insert] at hmem
      by_cases heq : e.1 = key e.2
      · exact heq
      · rw [if_neg heq] at hmem
        exact (htidy _ _ hmem).symm
    by_cases heq : k = e.1
    · rw [heq, hkey]
    · have hsome : (t.insert (key e.2) e.2)[k]?.isSome := by
        rw [getElem?_insert, if_neg (hkey ▸ heq)]
        exact hk
      have hlt := Nat.compare_eq_lt.mp (hmax k hsome heq)
      omega
  · intro hmax
    have hlast : last (t.insert (key v) v) = some (key v, v) :=
      last_insert fun k hk hne => Nat.compare_eq_lt.mpr (by have := hmax k hk; omega)
    rw [hlast]
    rfl

/-- Dropping the keys below a bound keeps the value of the greatest key exactly if that key is not
dropped. -/
lemma last_filter_iff {ν : Type} {t : BTreeMap ℕ ν} (height : ℕ) :
    (last t).map Prod.snd =
        (last (t.filter fun k _ => height ≤ k)).map Prod.snd ↔
      ∀ k : ℕ, t[k]?.isSome → ∃ k', height ≤ k' ∧ t[k']?.isSome := by
  have hread : ∀ k : ℕ, (t.filter fun k _ => height ≤ k)[k]? = if height ≤ k then t[k]? else none := by
    intro k
    rw [Std.ExtTreeMap.getElem?_filter']
    rcases t[k]? with _ | v
    · rw [Option.filter_none, ite_self]
    · rw [Option.filter_some]
      simp only [decide_eq_true_eq]
  rcases hl : last t with _ | e
  · have hempty : t.toList = [] := List.getLast?_eq_none_iff.mp hl
    have hnone : ∀ k : ℕ, ¬ t[k]?.isSome := by
      intro k hk
      obtain ⟨v, hv⟩ := Option.isSome_iff_exists.mp hk
      have hmem := mem_toList_iff (e := (k, v)).mpr hv
      rw [hempty] at hmem
      cases hmem
    refine iff_of_true ?_ fun k hk => absurd hk (hnone k)
    rcases hl' : last (t.filter fun k _ => height ≤ k) with _ | e'
    · rfl
    · obtain ⟨hmem, -⟩ := last_eq_some_iff.mp hl'
      rw [hread] at hmem
      split at hmem
      · exact absurd (by rw [hmem]; rfl) (hnone e'.1)
      · cases hmem
  · obtain ⟨hmem, hmax⟩ := last_eq_some_iff.mp hl
    by_cases he : height ≤ e.1
    · refine iff_of_true ?_ fun _ _ => ⟨e.1, he, by rw [hmem]; rfl⟩
      have hlast : last (t.filter fun k _ => height ≤ k) = some e := by
        refine last_eq_some_iff.mpr ⟨by rw [hread, if_pos he, hmem], fun k hk hne => hmax k ?_ hne⟩
        rw [hread] at hk
        split at hk
        · exact hk
        · cases hk
      rw [hlast]
    · -- Nothing is left.
      have hbelow : ∀ k : ℕ, height ≤ k → ¬ t[k]?.isSome := by
        intro k hk hsome
        have hlt := Nat.compare_eq_lt.mp (hmax k hsome (by omega))
        omega
      refine iff_of_false (fun hlast => ?_) fun hall => ?_
      · obtain ⟨e', he', -⟩ := Option.map_eq_some_iff.mp hlast.symm
        obtain ⟨hmem', -⟩ := last_eq_some_iff.mp he'
        rw [hread] at hmem'
        split at hmem'
        · rename_i hk
          exact hbelow e'.1 hk (by rw [hmem']; rfl)
        · cases hmem'
      · obtain ⟨k, hk, hsome⟩ := hall e.1 (by rw [hmem]; rfl)
        exact hbelow k hk hsome

end Table

/-- The bounds of a range are in order. -/
def StoreQuery.Ordered : StoreQuery → Prop
  | .evmLogsRange fromHeight toHeight => fromHeight ≤ toHeight
  | _ => True

namespace ChainStore

/-- A memory store and the collections of a RocksDB store that differ in the log only. -/
def Twin (m s : ChainStore) : Prop :=
  m.store.backend = .memory ∧ ∃ wal next, s = { m with
    store := { m.store with backend := .rocks, consensusWal := wal, consensusWalNext := next } }

/-- Blocks and transitions stand under their heights and epochs. -/
structure Tidy (m : ChainStore) : Prop where
  blocks : ∀ (h : ℕ) (b : FinalizedBlock), m.store.blocksByHeight[h]? = some b →
    b.block.header.height = h
  transitions : ∀ (e : ℕ) (t : EpochTransition), m.store.epochTransitions[e]? = some t → t.epoch = e

/-- The copies are those of the latest block and of the latest transition. -/
structure Pointed (m : ChainStore) : Prop where
  latest : m.store.metaLatest = (Table.last m.store.blocksByHeight).map Prod.snd
  epochLatest : m.store.epochLatest = (Table.last m.store.epochTransitions).map Prod.snd

/-- The block is not below any stored one. -/
def Tops (m : ChainStore) (block : FinalizedBlock) : Prop :=
  ∀ h : ℕ, m.store.blocksByHeight[h]?.isSome → h ≤ block.block.header.height

/-- The bounds of a range are in order, or there are no logs to look for. -/
def Bounds (m : ChainStore) : StoreQuery → Prop
  | .evmLogsRange fromHeight toHeight => fromHeight ≤ toHeight ∨ m.evmLogs.isEmpty
  | _ => True

lemma bounds_of_ordered {m : ChainStore} {q : StoreQuery} (h : q.Ordered) : m.Bounds q := by
  cases q with
  | evmLogsRange fromHeight toHeight => exact .inl h
  | _ => trivial

/-- Writes in ascending order, and pruning that leaves the latest block. -/
def Advances (m : ChainStore) : StoreCall → Prop
  | .write (.atomicCommitBlock block _) | .putFinalizedBlock block => m.Tops block
  | .write (.putEpochTransition transition) =>
    ∀ e : ℕ, m.store.epochTransitions[e]?.isSome → e ≤ transition.epoch
  | .write (.pruneBlocksBelow height) =>
    ∀ h : ℕ, m.store.blocksByHeight[h]?.isSome →
      ∃ h', height ≤ h' ∧ m.store.blocksByHeight[h']?.isSome
  | _ => True

variable [Hashing] {m s : ChainStore} {c : StoreCall}

lemma Twin.apply (h : Twin m s) (c : StoreCall) : Twin (m.apply c) (s.apply c) := by
  obtain ⟨hbackend, wal, next, rfl⟩ := h
  cases c with
  | write w =>
    cases w with
    | compactConsensusWal belowHeight =>
      obtain ⟨wal₁, h₁⟩ := m.store.compactConsensusWal_eq belowHeight
      obtain ⟨wal₂, h₂⟩ := Store.compactConsensusWal_eq
        { m.store with backend := .rocks, consensusWal := wal, consensusWalNext := next } belowHeight
      simp only [ChainStore.apply, Store.apply, h₁, h₂]
      exact ⟨hbackend, wal₂, next, rfl⟩
    | _ => exact ⟨hbackend, _, _, rfl⟩
  | _ => exact ⟨hbackend, _, _, rfl⟩

lemma Tidy.apply (h : m.Tidy) (c : StoreCall) : (m.apply c).Tidy := by
  have hblock : ∀ (block : FinalizedBlock) (n : ℕ) (b : FinalizedBlock),
      (m.store.blocksByHeight.insert block.block.header.height block)[n]? = some b →
      b.block.header.height = n := by
    intro block n b hb
    rw [Table.getElem?_insert] at hb
    split at hb
    · cases hb
      exact Eq.symm ‹_›
    · exact h.blocks n b hb
  cases c with
  | write w =>
    cases w with
    | putEpochTransition transition =>
      refine ⟨h.blocks, fun e t (ht : (m.store.epochTransitions.insert _ _)[e]? = some t) => ?_⟩
      rw [Table.getElem?_insert] at ht
      split at ht
      · cases ht
        exact Eq.symm ‹_›
      · exact h.transitions e t ht
    | atomicCommitBlock block accounts => exact ⟨hblock block, h.transitions⟩
    | compactConsensusWal belowHeight =>
      obtain ⟨wal, hwal⟩ := m.store.compactConsensusWal_eq belowHeight
      have hsame : m.apply (.write (.compactConsensusWal belowHeight)) =
          { m with store := { m.store with consensusWal := wal } } :=
        congrArg (fun store => { m with store := store }) hwal
      rw [hsame]
      exact ⟨h.blocks, h.transitions⟩
    | pruneBlocksBelow height =>
      refine ⟨fun n b (hb : (m.store.blocksByHeight.filter _)[n]? = some b) => ?_, h.transitions⟩
      rw [Std.ExtTreeMap.getElem?_filter'] at hb
      exact h.blocks n b (Option.filter_eq_some_iff.mp hb).1
    | _ => exact ⟨h.blocks, h.transitions⟩
  | putFinalizedBlock block => exact ⟨hblock block, h.transitions⟩
  | _ => exact ⟨h.blocks, h.transitions⟩

/-- **One write.**  The copies stay those of the latest block and transition exactly if the write
is in ascending order. -/
lemma Pointed.apply_iff (h : m.Pointed) (htidy : m.Tidy) (c : StoreCall) :
    (m.apply c).Pointed ↔ m.Advances c := by
  have hblock : ∀ block : FinalizedBlock, some block = (Table.last
        (m.store.blocksByHeight.insert block.block.header.height block)).map Prod.snd ↔
      m.Tops block := fun block =>
    Table.last_insert_iff (fun b : FinalizedBlock => b.block.header.height) htidy.blocks
  have hsame : ∀ m' : ChainStore, m'.store.metaLatest = m.store.metaLatest →
      m'.store.blocksByHeight = m.store.blocksByHeight →
      m'.store.epochLatest = m.store.epochLatest →
      m'.store.epochTransitions = m.store.epochTransitions → m'.Pointed := by
    intro m' h₁ h₂ h₃ h₄
    exact ⟨by rw [h₁, h₂, h.latest], by rw [h₃, h₄, h.epochLatest]⟩
  cases c with
  | write w =>
    cases w with
    | putEpochTransition transition =>
      have htransition := Table.last_insert_iff EpochTransition.epoch (v := transition)
        htidy.transitions
      exact ⟨fun hp => htransition.mp hp.epochLatest,
        fun ha => ⟨h.latest, htransition.mpr ha⟩⟩
    | atomicCommitBlock block accounts =>
      exact ⟨fun hp => (hblock block).mp hp.latest,
        fun ha => ⟨(hblock block).mpr ha, h.epochLatest⟩⟩
    | compactConsensusWal belowHeight =>
      obtain ⟨wal, hwal⟩ := m.store.compactConsensusWal_eq belowHeight
      have hstore : m.apply (.write (.compactConsensusWal belowHeight)) =
          { m with store := { m.store with consensusWal := wal } } :=
        congrArg (fun store => { m with store := store }) hwal
      rw [hstore]
      exact iff_of_true (hsame _ rfl rfl rfl rfl) trivial
    | pruneBlocksBelow height =>
      have hprune := Table.last_filter_iff (t := m.store.blocksByHeight) height
      rw [← h.latest] at hprune
      exact ⟨fun hp => hprune.mp hp.latest, fun ha => ⟨hprune.mpr ha, h.epochLatest⟩⟩
    | _ => exact iff_of_true (hsame _ rfl rfl rfl rfl) trivial
  | putFinalizedBlock block =>
    exact ⟨fun hp => (hblock block).mp hp.latest,
      fun ha => ⟨(hblock block).mpr ha, h.epochLatest⟩⟩
  | _ => exact iff_of_true (hsame _ rfl rfl rfl rfl) trivial

end ChainStore

/-! ## The same operations on both -/

/-- An operation of `ChainStore`. -/
inductive StoreOp
  | call (c : StoreCall)
  | ask (q : StoreQuery)

/-- The heights, bounds and epochs in an operation are words of 64 bits. -/
def StoreOp.Fits : StoreOp → Prop
  | call c => c.Fits
  | ask q => q.Fits

/-- A memory store and a database. -/
structure Both where
  memory : ChainStore := { store := { backend := .memory } }
  rocks : RocksStore := {}

namespace Both

variable [Hashing]

/-- The stores after an operation on both. -/
def step (b : Both) : StoreOp → Both
  | .call c =>
    { memory := b.memory.apply c
      rocks := match b.rocks.call c with
        | .ok (_, r) => r
        | _ => b.rocks }
  | .ask _ => b

omit [Hashing] in
/-- Both answer a read, and alike. -/
def Alike (b : Both) (q : StoreQuery) : Prop :=
  (b.memory.answer q).Returns ∧ b.memory.answer q = b.rocks.answer q

/-- Both return the same, but for the count of a compaction. -/
def SameResult (b : Both) : StoreOp → Prop
  | .call c => (∀ belowHeight, c ≠ .write (.compactConsensusWal belowHeight)) →
    (b.rocks.call c).value?.map Prod.fst = some (b.memory.count c)
  | .ask q => b.Alike q

/-- A write in ascending order, or a read whose bounds are in order or that finds no logs. -/
def Regular (b : Both) : StoreOp → Prop
  | .call c => b.memory.Advances c
  | .ask q => b.memory.Bounds q

/-- The database shows what the memory store holds. -/
structure Linked (b : Both) : Prop where
  tidy : b.memory.Tidy
  twin : ∃ s, b.memory.Twin s ∧ b.rocks.Shows s

variable {b : Both}

lemma Linked.call (h : b.Linked) {c : StoreCall} (hfits : c.Fits) :
    (b.step (.call c)).Linked ∧ b.SameResult (.call c) := by
  obtain ⟨s, htwin, hshows⟩ := h.twin
  obtain ⟨n, r, hcall, hshows', hcount⟩ := hshows.call hfits
  have hrocks : (b.step (.call c)).rocks = r := by
    rw [step]
    dsimp only
    rw [hcall]
  refine ⟨⟨h.tidy.apply c, s.apply c, htwin.apply c, hrocks ▸ hshows'⟩, fun hnot => ?_⟩
  rw [hcall, Outcome.value?, Option.map_some, hcount hnot]
  obtain ⟨-, wal, next, rfl⟩ := htwin
  cases c with
  | write w =>
    cases w with
    | compactConsensusWal belowHeight => exact absurd rfl (hnot belowHeight)
    | _ => rfl
  | _ => rfl

lemma Linked.step (h : b.Linked) {op : StoreOp} (hfits : op.Fits) : (b.step op).Linked := by
  cases op with
  | call c => exact (h.call hfits).1
  | ask q => exact h

omit [Hashing] in
/-- With the right copies, all reads are answered alike but for ranges of existing logs that end
before they start. -/
lemma Linked.alike_iff (h : b.Linked) (hpointed : b.memory.Pointed) {q : StoreQuery}
    (hfits : q.Fits) : b.Alike q ↔ b.memory.Bounds q := by
  obtain ⟨s, ⟨hbackend, wal, next, rfl⟩, hshows⟩ := h.twin
  have hanswer := hshows.answer rfl hfits
  rw [Alike, hanswer]
  cases q with
  | latestBlock =>
    refine iff_of_true ⟨Outcome.returns_ok _, ?_⟩ trivial
    rw [ChainStore.answer, ChainStore.answer, Store.latestBlock, hbackend]
    exact congrArg Outcome.ok hpointed.latest.symm
  | latestEpochTransition =>
    refine iff_of_true ⟨Outcome.returns_ok _, ?_⟩ trivial
    rw [ChainStore.answer, ChainStore.answer, Store.latestEpochTransition, hbackend]
    exact congrArg Outcome.ok hpointed.epochLatest.symm
  | evmLogsRange fromHeight toHeight =>
    rw [ChainStore.answer, hbackend, ChainStore.Bounds]
    by_cases hlost : toHeight < fromHeight ∧ ¬ b.memory.evmLogs.isEmpty
    · rw [if_pos ⟨rfl, hlost⟩]
      refine iff_of_false (fun hreturns => Outcome.not_returns_panic hreturns.1) ?_
      rintro (hle | hempty)
      · exact absurd hlost.1 (Nat.not_lt.mpr hle)
      · exact hlost.2 hempty
    · rw [if_neg fun hc => hlost hc.2]
      refine iff_of_true ⟨Outcome.returns_ok _, ?_⟩ ?_
      · rw [ChainStore.answer, if_neg fun hc => hlost hc.2]
        rfl
      · rw [not_and_or, Nat.not_lt, not_not] at hlost
        exact hlost
  | _ => exact iff_of_true ⟨Outcome.returns_ok _, rfl⟩ trivial

omit [Hashing] in
/-- The copies are right if the latest block and the latest transition are read alike. -/
lemma Linked.pointed (h : b.Linked) (hblock : b.Alike .latestBlock)
    (htransition : b.Alike .latestEpochTransition) : b.memory.Pointed := by
  obtain ⟨s, ⟨hbackend, wal, next, rfl⟩, hshows⟩ := h.twin
  have hlatest := hblock.2
  have hepoch := htransition.2
  rw [hshows.answer (q := .latestBlock) rfl trivial, ChainStore.answer, ChainStore.answer,
    Store.latestBlock, hbackend] at hlatest
  rw [hshows.answer (q := .latestEpochTransition) rfl trivial, ChainStore.answer, ChainStore.answer,
    Store.latestEpochTransition, hbackend] at hepoch
  exact ⟨(Outcome.ok.inj hlatest).symm, (Outcome.ok.inj hepoch).symm⟩

omit [Hashing] in
lemma linked_empty : Linked {} := by
  refine ⟨⟨fun h b hb => by simp at hb, fun e t ht => by simp at ht⟩,
    { store := { backend := .rocks } }, ⟨rfl, _, _, rfl⟩, RocksStore.wellFormed_empty, ?_, ?_, ?_⟩
  · intro k _ _
    cases k with
    | metadata name => cases name <;> rfl
    | _ => rfl
  · exact fun h hh => by simp at hh
  · exact fun h hh => by simp at hh

omit [Hashing] in
lemma pointed_empty : (Both.memory {}).Pointed := ⟨rfl, rfl⟩

/-- One operation from right copies: it returns the same and leaves right copies exactly if it is
regular. -/
lemma Linked.regular_iff (h : b.Linked) (hpointed : b.memory.Pointed) {op : StoreOp}
    (hfits : op.Fits) :
    b.SameResult op ∧ (b.step op).memory.Pointed ↔ b.Regular op := by
  cases op with
  | call c =>
    have hiff := hpointed.apply_iff h.tidy c
    exact ⟨fun hboth => hiff.mp hboth.2, fun hregular => ⟨(h.call hfits).2, hiff.mpr hregular⟩⟩
  | ask q =>
    have hiff := h.alike_iff hpointed hfits
    exact ⟨fun hboth => hiff.mp hboth.1, fun hregular => ⟨hiff.mpr hregular, hpointed⟩⟩

end Both

/-- **The backends are equal exactly in regular runs.**  In every state of a run from the empty
stores all reads with bounds in order are answered, and alike, and every operation returns the same
on both, exactly if blocks and transitions are written in ascending order, pruning leaves the latest
block, and the bounds of all ranges are in order as soon as any logs are stored. -/
theorem backends_equal_iff [Hashing] (ops : List StoreOp) (hfits : ∀ op ∈ ops, op.Fits) :
    ((∀ l m, ops = l ++ m → ∀ q : StoreQuery, q.Fits → q.Ordered → (l.foldl Both.step {}).Alike q) ∧
      ∀ e ∈ Trace.along Both.step {} ops, e.1.SameResult e.2) ↔
    ∀ e ∈ Trace.along Both.step {} ops, e.1.Regular e.2 := by
  rw [Trace.forall_prefix_iff
    (P := fun b : Both => ∀ q : StoreQuery, q.Fits → q.Ordered → b.Alike q)]
  have hpointed : ∀ b : Both, b.Linked →
      (∀ q : StoreQuery, q.Fits → q.Ordered → b.Alike q) → b.memory.Pointed :=
    fun b h hall => h.pointed (hall _ trivial trivial) (hall _ trivial trivial)
  constructor
  · rintro ⟨⟨-, hstates⟩, hresults⟩
    obtain ⟨hall, -⟩ := Trace.keeps (I := fun b : Both => b.Linked ∧ b.memory.Pointed)
      (C := fun b op => op.Fits ∧ ∀ q : StoreQuery, q.Fits → q.Ordered → (b.step op).Alike q)
      (fun b op h hc => ⟨h.1.step hc.1, hpointed _ (h.1.step hc.1) hc.2⟩)
      ⟨Both.linked_empty, Both.pointed_empty⟩
      fun e he => ⟨hfits e.2 (Trace.mem_of_mem_along he), hstates e he⟩
    intro e he
    have hop := hfits e.2 (Trace.mem_of_mem_along he)
    obtain ⟨hlinked, hp⟩ := hall e he
    exact (hlinked.regular_iff hp hop).mp
      ⟨hresults e he, hpointed _ (hlinked.step hop) (hstates e he)⟩
  · intro hregular
    have hkeep : ∀ (b : Both) (op : StoreOp), b.Linked ∧ b.memory.Pointed →
        op.Fits ∧ b.Regular op → (b.step op).Linked ∧ (b.step op).memory.Pointed :=
      fun b op h hc => ⟨h.1.step hc.1, ((h.1.regular_iff h.2 hc.1).mpr hc.2).2⟩
    obtain ⟨hall, -⟩ := Trace.keeps hkeep ⟨Both.linked_empty, Both.pointed_empty⟩
      fun e he => ⟨hfits e.2 (Trace.mem_of_mem_along he), hregular e he⟩
    refine ⟨⟨fun q hq hordered => (Both.linked_empty.alike_iff Both.pointed_empty hq).mpr
        (ChainStore.bounds_of_ordered hordered),
      fun e he q hq hordered => ?_⟩, fun e he => ?_⟩
    · obtain ⟨hlinked, hp⟩ := hkeep e.1 e.2 (hall e he)
        ⟨hfits e.2 (Trace.mem_of_mem_along he), hregular e he⟩
      exact (hlinked.alike_iff hp hq).mpr (ChainStore.bounds_of_ordered hordered)
    · obtain ⟨hlinked, hp⟩ := hall e he
      exact ((hlinked.regular_iff hp (hfits e.2 (Trace.mem_of_mem_along he))).mpr
        (hregular e he)).1

/-! ## A block put below another -/

section

open Transparent

/-- An empty block of a height. -/
def blockAt (height : ℕ) : FinalizedBlock :=
  uncertified (sealBlock
    { height, round := 0, chainId := "zeno", parentHash := 0, txRoot := 0, stateRoot := 0
      receiptRoot := 0, proposer := address [1], timestampMs := 0 } [] [1]) []

/-- A log of height 2 is put, and a block of height 1 after one of height 2. -/
def belowTheLatest : List StoreOp :=
  [.call (.putEvmLogs 2 [⟨7, [], []⟩]), .call (.putFinalizedBlock (blockAt 2)),
    .call (.putFinalizedBlock (blockAt 1))]

instance : DecidableEq StoreQuery.latestBlock.Answer :=
  inferInstanceAs (DecidableEq (Option FinalizedBlock))

instance (fromHeight toHeight : ℕ) : DecidableEq (StoreQuery.evmLogsRange fromHeight toHeight).Answer :=
  inferInstanceAs (DecidableEq (List (ℕ × EvmLog)))

/-- The latest block is the one of height 2 in memory and the one of height 1 in the database; after
pruning below 3 there is none in memory and still one in the database; and a range of logs that ends
before it starts panics in memory only. -/
theorem belowTheLatest_differ :
    let b := belowTheLatest.foldl Both.step {}
    let pruned := b.step (.call (.write (.pruneBlocksBelow 3)))
    (b.memory.answer .latestBlock = .ok (some (blockAt 2)) ∧
      b.rocks.answer .latestBlock = .ok (some (blockAt 1))) ∧
    (pruned.memory.answer .latestBlock = .ok none ∧
      pruned.rocks.answer .latestBlock = .ok (some (blockAt 1))) ∧
    b.memory.answer (.evmLogsRange 1 0) = .panic ∧ b.rocks.answer (.evmLogsRange 1 0) = .ok [] := by
  decide +kernel

/-- Put in ascending order, the blocks are read alike. -/
theorem ascending_alike :
    let ops : List StoreOp :=
      [.call (.putFinalizedBlock (blockAt 1)), .call (.putFinalizedBlock (blockAt 2)),
        .ask .latestBlock]
    (ops.foldl Both.step {}).Alike .latestBlock := by
  intro ops
  have hfits : ∀ op ∈ ops, op.Fits := by
    simp only [ops, List.forall_mem_cons]
    exact ⟨(by decide : 1 < 2 ^ 64), (by decide : 2 < 2 ^ 64), trivial,
      fun op hop => (List.not_mem_nil hop).elim⟩
  refine ((backends_equal_iff ops hfits).mpr ?_).1 ops [] rfl _ trivial trivial
  simp only [ops, Trace.along, List.forall_mem_cons]
  refine ⟨fun h hh => ?_, fun h hh => ?_, trivial, fun e he => (List.not_mem_nil he).elim⟩
  · simp at hh
  · show h ≤ 2
    replace hh : ((∅ : BTreeMap ℕ FinalizedBlock).insert 1 (blockAt 1))[h]?.isSome := hh
    rw [Table.getElem?_insert] at hh
    split at hh
    · omega
    · simp at hh

end

end ZenoChain
