/-
# The index of blocks

A committed block is filed under its height and its hash, and becomes the latest one.  Blocks are
pruned a thousand heights below the last commit.  As the committed heights rise, the store holds
the end of the chain wherever the process stops: the latest block is the last one committed, and
the blocks of the last thousand heights are there.
-/
import ZenoChain.Node.CommitOrder
import ZenoChain.Node.HeaderSync

namespace ZenoChain

open Word Handler

/-- The store holds the end of a chain, from some height on. -/
structure Store.HoldsEnd [Hashing] (store : Store) (chain : List FinalizedBlock) (bound : ℕ) :
    Prop where
  latest : store.latestBlock = chain.getLast?
  byHeight : ∀ height f, store.blocksByHeight[height]? = some f ↔
    f ∈ chain ∧ f.block.header.height = height ∧ bound ≤ height
  byHash : ∀ hash f, store.blocksByHash[hash]? = some f →
    f ∈ chain ∧ f.block.hash = hash ∧ bound ≤ f.block.header.height

/-- The store holds the end of the committed chain, and what it lacks is at least a thousand heights
below the last block. -/
def Disk.KeepsRecent [Hashing] (d : Disk) : Prop :=
  ∃ bound, d.store.HoldsEnd d.committed bound ∧
    (bound = 0 ∨ ∃ f, d.committed.getLast? = some f ∧ bound + 1000 ≤ f.block.header.height)

/-- The heights of committed blocks rise, and they are those of their certificates. -/
structure RisingChain (chain : List FinalizedBlock) : Prop where
  heights : (chain.map fun f => f.block.header.height).Pairwise (· < ·)
  sealed : ∀ f ∈ chain, f.certificate.height = f.block.header.height

section

variable {chain : List FinalizedBlock} {f : FinalizedBlock}

lemma RisingChain.of_append {front rest : List FinalizedBlock} (h : RisingChain (front ++ rest)) :
    RisingChain front where
  heights := by
    have hall := h.heights
    rw [List.map_append] at hall
    exact (List.pairwise_append.mp hall).1
  sealed g hg := h.sealed g (List.mem_append_left _ hg)

lemma RisingChain.lt_of_concat (h : RisingChain (chain ++ [f])) :
    ∀ g ∈ chain, g.block.header.height < f.block.header.height := by
  intro g hg
  have hall := h.heights
  rw [List.map_append, List.map_singleton] at hall
  exact (List.pairwise_append.mp hall).2.2 _ (List.mem_map_of_mem hg) _ (List.mem_singleton_self _)

lemma RisingChain.le_last (h : RisingChain chain) {last : FinalizedBlock}
    (hlast : chain.getLast? = some last) :
    ∀ g ∈ chain, g.block.header.height ≤ last.block.header.height := by
  obtain ⟨front, rfl⟩ := List.getLast?_eq_some_iff.mp hlast
  intro g hg
  rcases List.mem_append.mp hg with hold | hnew
  · exact (h.lt_of_concat g hold).le
  · rw [List.mem_singleton.mp hnew]

variable [Hashing] {store : Store} {bound : ℕ}

/-- A block above the chain is committed. -/
lemma Store.HoldsEnd.commit (h : store.HoldsEnd chain bound) (hrise : RisingChain (chain ++ [f]))
    (hbound : bound ≤ f.block.header.height) (accounts : BTreeMap Address Account) :
    (store.atomicCommitBlock f accounts).HoldsEnd (chain ++ [f]) bound := by
  have habove := hrise.lt_of_concat
  refine ⟨?_, fun height g => ?_, fun hash g hfound => ?_⟩
  · rw [List.getLast?_concat, Store.latestBlock]
    split
    · rw [Store.atomicCommitBlock, Table.last_insert]
      · rfl
      · intro height hsome _
        obtain ⟨g, hg⟩ := Option.isSome_iff_exists.mp hsome
        obtain ⟨hmem, rfl, -⟩ := (h.byHeight height g).mp hg
        exact Nat.compare_eq_lt.mpr (habove g hmem)
    · rfl
  · rw [Store.atomicCommitBlock, Table.getElem?_insert, List.mem_append, List.mem_singleton]
    split
    · rename_i hheight
      constructor
      · rintro ⟨⟩
        exact ⟨.inr rfl, hheight.symm, hheight ▸ hbound⟩
      · rintro ⟨hmem | rfl, heq, -⟩
        · exact absurd (heq.trans hheight) (habove g hmem).ne
        · rfl
    · rename_i hne
      rw [h.byHeight]
      constructor
      · rintro ⟨hmem, hrest⟩
        exact ⟨.inl hmem, hrest⟩
      · rintro ⟨hmem | rfl, heq, hle⟩
        · exact ⟨hmem, heq, hle⟩
        · exact absurd heq.symm hne
  · rw [Store.atomicCommitBlock, Table.getElem?_insert] at hfound
    split at hfound
    · rename_i hhash
      obtain rfl := Option.some.inj hfound
      exact ⟨List.mem_append_right _ (List.mem_singleton_self _), hhash.symm, hbound⟩
    · obtain ⟨hmem, hrest⟩ := h.byHash hash g hfound
      exact ⟨List.mem_append_left _ hmem, hrest⟩

/-- Blocks are pruned below a height which the last block has reached. -/
lemma Store.HoldsEnd.prune (h : store.HoldsEnd chain bound) (hrise : RisingChain chain)
    {last : FinalizedBlock} (hlast : chain.getLast? = some last) (hbound : bound ≤ last.block.header.height)
    {n : ℕ} (hn : n ≤ last.block.header.height) :
    (store.pruneBlocksBelow n).HoldsEnd chain (max bound n) := by
  have hfilter : ∀ height g, (store.pruneBlocksBelow n).blocksByHeight[height]? = some g ↔
      store.blocksByHeight[height]? = some g ∧ n ≤ height := by
    intro height g
    rw [Store.pruneBlocksBelow, Std.ExtTreeMap.getElem?_filter', Option.filter_eq_some_iff,
      decide_eq_true_eq]
  refine ⟨?_, fun height g => ?_, fun hash g hfound => ?_⟩
  · rw [hlast, Store.latestBlock]
    split
    · have hfound : (Table.last (store.pruneBlocksBelow n).blocksByHeight) =
          some (last.block.header.height, last) := by
        refine Table.last_eq_some_iff.mpr ⟨(hfilter _ _).mpr ⟨(h.byHeight _ _).mpr
          ⟨List.mem_of_getLast? hlast, rfl, hbound⟩, hn⟩, fun height hsome hne => ?_⟩
        obtain ⟨g, hg⟩ := Option.isSome_iff_exists.mp hsome
        obtain ⟨hmem, rfl, -⟩ := (h.byHeight height g).mp ((hfilter height g).mp hg).1
        exact Nat.compare_eq_lt.mpr (lt_of_le_of_ne (hrise.le_last hlast g hmem) hne)
      rw [hfound]
      rfl
    · rename_i hrocks
      have hlatest := h.latest
      rw [Store.latestBlock, show store.backend = .rocks from hrocks, hlast] at hlatest
      exact hlatest
  · rw [hfilter, h.byHeight, max_le_iff]
    tauto
  · rw [Store.pruneBlocksBelow, Table.getElem?_foldl_erase] at hfound
    split at hfound
    · cases hfound
    · rename_i hkept
      obtain ⟨hmem, rfl, hle⟩ := h.byHash hash g hfound
      refine ⟨hmem, rfl, max_le hle (not_lt.mp fun hlt => hkept ?_)⟩
      exact ⟨(g.block.header.height, g), Table.mem_toList_iff.mpr
        ((h.byHeight _ _).mpr ⟨hmem, rfl, hle⟩), hlt, rfl⟩

omit [Hashing] in
/-- The effect neither commits a block nor prunes blocks. -/
def Effect.sparesBlocks : Effect → Bool
  | .write (.atomicCommitBlock ..) | .write (.pruneBlocksBelow _) => false
  | _ => true

lemma Store.HoldsEnd.sparing {d : Disk} (h : d.store.HoldsEnd chain bound) {x : Effect}
    (hx : x.sparesBlocks) : (d.record x).store.HoldsEnd chain bound := by
  rcases x with w | _ | _ | _ | _
  · cases w with
    | atomicCommitBlock | pruneBlocksBelow => cases hx
    | compactConsensusWal n =>
      obtain ⟨wal, heq⟩ := d.store.compactConsensusWal_eq n
      rw [Disk.store_record_write, Store.apply, heq]
      exact ⟨h.latest, h.byHeight, h.byHash⟩
    | _ => exact ⟨h.latest, h.byHeight, h.byHash⟩
  all_goals exact ⟨h.latest, h.byHeight, h.byHash⟩

/-! ## Wherever the process stops -/

/-- A disk without blocks. -/
structure BlankIndex (d : Disk) : Prop where
  journal : d.journal = []
  byHeight : d.store.blocksByHeight = ∅
  byHash : d.store.blocksByHash = ∅
  metaLatest : d.store.metaLatest = none

/-- A block of the last thousand heights is sent to a peer that asks for it. -/
lemma Disk.KeepsRecent.served {d : Disk} (h : d.KeepsRecent) (hmem : f ∈ d.committed)
    (hrecent : ∀ last, d.committed.getLast? = some last →
      last.block.header.height ≤ f.block.header.height + 1000) :
    d.store.buildSyncResponse (.blockByHeight f.block.header.height) = .block (some f) := by
  obtain ⟨bound, hend, hfar⟩ := h
  rw [Store.buildSyncResponse, (hend.byHeight _ f).mpr ⟨hmem, rfl, ?_⟩]
  rcases hfar with rfl | ⟨last, hlast, hle⟩
  · exact Nat.zero_le _
  · have hclose := hrecent last hlast
    omega

lemma BlankIndex.keepsRecent {d : Disk} (h : BlankIndex d) : d.KeepsRecent := by
  have hnone : d.committed = [] := by
    rw [Disk.committed, h.journal]
    rfl
  refine ⟨0, ⟨?_, fun height f => ?_, fun hash f hfound => ?_⟩, .inl rfl⟩
  · rw [hnone, Store.latestBlock]
    split
    · rw [h.byHeight]
      rfl
    · rw [h.metaLatest]
      rfl
  · rw [hnone, h.byHeight, Std.ExtTreeMap.getElem?_empty]
    exact iff_of_false (fun hc => by cases hc) fun hc => absurd hc.1 List.not_mem_nil
  · rw [h.byHash, Std.ExtTreeMap.getElem?_empty] at hfound
    cases hfound

/-- One effect. -/
lemma Disk.KeepsRecent.record {d : Disk} {x : Effect} (h : d.KeepsRecent)
    (hrise : RisingChain (d.record x).committed) (hx : x.InOrder d.journal) :
    (d.record x).KeepsRecent := by
  obtain ⟨bound, hend, hfar⟩ := h
  have hcommitted : (d.record x).committed = d.committed ++ (Effect.commits x).toList := by
    rw [Disk.committed, Disk.journal_record, List.filterMap_append]
    rfl
  by_cases hspares : x.sparesBlocks
  · have hnone : x.commits = none := by
      unfold Effect.commits
      split
      · cases hspares
      · rfl
    rw [hnone, Option.toList_none, List.append_nil] at hcommitted
    refine ⟨bound, ?_, hcommitted ▸ hfar⟩
    rw [hcommitted]
    exact hend.sparing hspares
  · rcases x with w | _ | _ | _ | _
    · cases w with
      | atomicCommitBlock f accounts =>
        have hchain : (d.record (.write (.atomicCommitBlock f accounts))).committed =
            d.committed ++ [f] := hcommitted
        rw [hchain] at hrise
        -- The bound is below the block before, which is below this one.
        have hbound : bound = 0 ∨ bound + 1000 ≤ f.block.header.height := by
          refine hfar.imp_right ?_
          rintro ⟨last, hlast, hle⟩
          exact hle.trans (hrise.lt_of_concat last (List.mem_of_getLast? hlast)).le
        refine ⟨bound, ?_, hbound.imp_right fun hle => ⟨f, ?_, hle⟩⟩
        · rw [hchain]
          exact hend.commit hrise (by omega) accounts
        · rw [hchain, List.getLast?_concat]
      | pruneBlocksBelow n =>
        have hchain : (d.record (.write (.pruneBlocksBelow n))).committed = d.committed :=
          hcommitted.trans (List.append_nil _)
        rw [hchain] at hrise
        obtain ⟨height, hle, hreached⟩ := hx.prune n rfl
        obtain ⟨last, hlast, rfl⟩ : ∃ last, d.committed.getLast? = some last ∧
            last.certificate.height = height := by
          rw [committedHeights, List.getLast?_map, Option.map_eq_some_iff] at hreached
          exact hreached
        rw [hrise.sealed last (List.mem_of_getLast? hlast)] at hle
        have hbound : bound = 0 ∨ bound + 1000 ≤ last.block.header.height := by
          refine hfar.imp_right ?_
          rintro ⟨last', hlast', hle'⟩
          obtain rfl := Option.some.inj (hlast.symm.trans hlast')
          exact hle'
        refine ⟨max bound n, ?_, .inr ⟨last, hchain ▸ hlast, ?_⟩⟩
        · rw [hchain]
          exact hend.prune hrise hlast (by omega) (by omega)
        · omega
      | _ => exact absurd rfl hspares
    all_goals exact absurd rfl hspares

/-- What is committed in order is kept. -/
lemma keepsRecent_of_inOrder {d : Disk} {journal : List Effect} (hblank : BlankIndex d)
    (horder : Throughout Effect.InOrder journal) (hrise : RisingChain (d.recordAll journal).committed) :
    (d.recordAll journal).KeepsRecent := by
  refine horder.induction (motive := fun l => RisingChain (d.recordAll l).committed →
    (d.recordAll l).KeepsRecent) (fun _ => hblank.keepsRecent) (fun l x _ hx ih hrise => ?_) hrise
  have hrecord : d.recordAll (l ++ [x]) = (d.recordAll l).record x := by
    rw [Disk.recordAll_append]
    rfl
  rw [hrecord] at hrise ⊢
  have hbefore : RisingChain (d.recordAll l).committed := by
    rw [Disk.committed, Disk.journal_record, List.filterMap_append] at hrise
    exact hrise.of_append
  refine (ih hbefore).record hrise ?_
  rw [Disk.journal_recordAll, hblank.journal]
  exact hx

end

namespace ConsensusEngine

variable [Hashing] [Revm] {e : ConsensusEngine} {w : World}

omit [Hashing] [Revm] in
lemma Rising.chain (h : e.Rising w) : RisingChain w.disk.committed where
  heights := by
    have heq : (w.disk.committed.map fun f => f.block.header.height) =
        w.disk.committed.map fun f => f.certificate.height :=
      List.map_congr_left fun f hf => (h.past f hf).1.symm
    rw [heq]
    exact h.heights
  sealed f hf := (h.past f hf).1

omit [Revm] in
/-- The history of a process on a blank disk. -/
lemma Historic.keepsRecent {d : Disk} (h : e.Historic d w) (hblank : BlankIndex d) :
    w.disk.KeepsRecent := by
  rw [h.disk]
  refine keepsRecent_of_inOrder hblank h.order ?_
  rw [← h.disk]
  exact h.toRising.chain

/-- **The recent blocks are kept.**  In every life of a process on a blank disk, wherever it stops,
the latest block is the last one committed, and the stored blocks are the committed ones from some
height on, which is at least a thousand below the last one. -/
theorem recent_blocks_kept {d : Disk} (hblank : BlankIndex d) (hnumbered : d.Numbered)
    (hlife : Relation.ReflTransGen (Life e fun _ => True) (World.boot d) w) :
    w.disk.KeepsRecent ∧
    ∀ event k, Roomy w event → (e.crashDisk w event k).KeepsRecent := by
  have hhistoric := historic_of_life hblank.journal hnumbered hlife
  exact ⟨hhistoric.keepsRecent hblank, fun event k hroom =>
    (hhistoric.crash hnumbered hroom k).keepsRecent hblank⟩

end ConsensusEngine

section

open Transparent ConsensusEngine

/-- The general fact for a process that has crashed after it has committed the first block. -/
theorem first_recent_blocks_kept :
    afterFirst.disk.KeepsRecent ∧
    ∀ event k, Roomy afterFirst event →
      ((engineOf [1]).crashDisk afterFirst event k).KeepsRecent :=
  recent_blocks_kept ⟨rfl, rfl, rfl, rfl⟩ numbered_blank afterFirst_life

end

end ZenoChain
