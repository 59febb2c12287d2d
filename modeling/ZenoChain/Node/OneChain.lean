/-
# One chain

Honest nodes commit the blocks of one chain, each of them a part of it from the first block on: the
heights have no gaps, and nodes with the same number of blocks have the same ledger.  A block that a
quorum precommits to has been locked on by an honest node, at the end of the chain of that node.
-/
import ZenoChain.Node.Succession

namespace ZenoChain

/-! ## Numbered lists -/

section

variable {α : Type} {number : α → ℕ} {l m : List α}

/-- Of two lists that are numbered from one, with the same entry wherever both have a number, one is
the beginning of the other. -/
lemma begins_of_numbered (hl : l.map number = List.range' 1 l.length)
    (hm : m.map number = List.range' 1 m.length)
    (hsame : ∀ a ∈ l, ∀ b ∈ m, number a = number b → a = b) : l <+: m ∨ m <+: l := by
  have hnumber : ∀ {l : List α}, l.map number = List.range' 1 l.length →
      ∀ k, (hk : k < l.length) → number l[k] = 1 + k := by
    intro l hl k hk
    have hentry : (l.map number)[k]? = some (number l[k]) := by simp [hk]
    rw [hl, List.getElem?_range' hk] at hentry
    simpa using hentry.symm
  have hentries : ∀ k, (hk : k < l.length) → (hk' : k < m.length) → l[k] = m[k] :=
    fun k hk hk' => hsame _ (List.getElem_mem hk) _ (List.getElem_mem hk')
      ((hnumber hl k hk).trans (hnumber hm k hk').symm)
  rcases Nat.le_total l.length m.length with hle | hle
  · exact .inl (List.prefix_iff_getElem.mpr ⟨hle, fun k hk => hentries k hk _⟩)
  · exact .inr (List.prefix_iff_getElem.mpr ⟨hle, fun k hk => (hentries k _ hk).symm⟩)

end

/-- Heights without gaps. -/
lemma heights_of_throughout {chain : List FinalizedBlock}
    (h : Throughout (fun before f => f.block.header.height = heightAfter before) chain) :
    chain.map (fun f => f.block.header.height) = List.range' 1 chain.length ∧
      heightAfter chain = chain.length + 1 := by
  refine h.induction (motive := fun chain => chain.map (fun f => f.block.header.height) =
    List.range' 1 chain.length ∧ heightAfter chain = chain.length + 1) ⟨rfl, rfl⟩ ?_
  rintro chain f - hnext ⟨hheights, hafter⟩
  have hheight : f.block.header.height = chain.length + 1 := hnext.trans hafter
  refine ⟨?_, ?_⟩
  · rw [List.map_append, hheights, List.length_append, List.length_singleton,
      List.range'_concat, List.map_singleton, hheight]
    congr 2
    omega
  · rw [heightAfter_concat, hheight, List.length_append, List.length_singleton]

section

variable [Hashing]

/-- The last block of a ledger that begins without one. -/
lemma Ledger.tip_afterAll {e : ExecutionEngine} {genesis : Ledger} (hgenesis : genesis.tip = 0)
    (chain : List FinalizedBlock) : (genesis.afterAll e (chain.map (·.block))).tip = tipOf chain := by
  rcases List.eq_nil_or_concat chain with rfl | ⟨front, f, rfl⟩
  · exact hgenesis
  · rw [List.concat_eq_append, List.map_append, List.map_singleton, Ledger.afterAll_concat,
      tipOf_concat]
    rfl

/-- Each committed block names the one before it. -/
lemma ConsensusEngine.KeepsLedger.parent {e : ConsensusEngine} {genesis : Ledger} {d : Disk}
    (h : e.KeepsLedger genesis d) (hgenesis : genesis.tip = 0) {front rest : List FinalizedBlock}
    {f : FinalizedBlock} (hsplit : d.committed = front ++ f :: rest) :
    f.block.header.parentHash = tipOf front := by
  have hcarries := h.carries
  rw [hsplit, List.map_append, List.map_cons, Ledger.carries_append] at hcarries
  rw [hcarries.2.1.parent, Ledger.tip_afterAll hgenesis]

end

/-! ## A network from its beginning -/

section

variable {ι : Type}

/-- The blocks that a node has committed. -/
def NetworkState.chain (s : NetworkState ι) (i : ι) : List Block :=
  (s.node i).disk.committed.map (·.block)

/-- Some node has committed the block or locked on it. -/
def NetworkState.Upholds (s : NetworkState ι) (block : Block) : Prop :=
  ∃ i, block ∈ s.chain i ∨ block ∈ (s.node i).disk.lockedBlocks

end

namespace Network

variable {ι : Type} [DecidableEq ι] [Hashing] [Revm] {net : Network ι} {start : ι → Disk}
  {s : NetworkState ι}

/-- A sound network whose nodes build on what they have committed. -/
structure Chained (net : Network ι) (start : ι → Disk) (s : NetworkState ι) : Prop
    extends net.Sound s where
  successive : ∀ i, (net.engine i).Successive (start i) (s.node i)
  ledger : ∀ i, (net.engine i).KeepsLedger ⟨(start i).store.accounts, 0⟩ (s.node i).disk

lemma chained_boot (net : Network ι) (hstart : ∀ i, Pristine (start i)) :
    net.Chained start (boot start) where
  toSound := sound_boot net fun i => (hstart i).journal
  successive i := (hstart i).successive
  ledger i := (ConsensusEngine.keepsLedger_of_run (e := net.engine i) (hstart i).toBlankIndex
    (hstart i).numbered .refl).2

/-- **One delivery.** -/
lemma Chained.deliver (h : net.Chained start s) (hstart : ∀ i, Pristine (start i))
    {x : ι × Event} (hlegal : net.Legal s x)
    (hsighted : (net.engine x.1).Sighted (s.node x.1) x.2) :
    net.Chained start (net.deliver s x) := by
  have hblank := (hstart x.1).toBlankIndex
  have hnumbered := (hstart x.1).numbered
  refine ⟨h.toSound.deliver hlegal hsighted, fun i => ?_, fun i => ?_⟩
  · rw [Network.deliver]
    dsimp only
    rcases eq_or_ne i x.1 with rfl | hne
    · rw [Function.update_self]
      exact (h.successive _).handle hblank hnumbered hsighted
    · rw [Function.update_of_ne hne]
      exact h.successive i
  · rw [Network.deliver]
    dsimp only
    rcases eq_or_ne i x.1 with rfl | hne
    · rw [Function.update_self]
      exact (h.ledger _).handle rfl (h.successive _).toHistoric hblank hnumbered hsighted.1
    · rw [Function.update_of_ne hne]
      exact h.ledger i

/-! ## The heights of a chain -/

omit [Revm] in
/-- Of a quorum of precommits, one is that of an honest node. -/
lemma Sound.exists_precommit (h : net.Sound s) {height round : ℕ} {blockHash : Hash32}
    (hsupported : net.Supported s.record (height, round, .precommit, blockHash)) :
    ∃ j, ∃ vote : Vote, .vote vote ∈ (s.node j).disk.ballots ∧ vote.step = .precommit ∧
      vote.blockHash = blockHash := by
  obtain ⟨S, hS, hheard⟩ := hsupported
  obtain ⟨a, ha, -, hgood⟩ := hS.exists_common hS
  obtain ⟨j, hspeaks⟩ := net.covers a (hheard a ha).1 hgood
  obtain ⟨vote, hvote, hchoice⟩ := (hheard a ha).2 j hspeaks
  obtain ⟨-, -, hstep, hhash⟩ : vote.height = height ∧ vote.round = round ∧
    vote.step = .precommit ∧ vote.blockHash = blockHash := by simpa [Vote.choice] using hchoice
  refine ⟨j, vote, ?_, hstep, hhash⟩
  rwa [(h.node j).ballots, mem_ballotsOf]

section

variable (h : net.Chained start s) (hfree : Set.InjOn Block.hash {block | s.Upholds block})
  (hsome : ∀ block, s.Upholds block → block.hash ≠ nilHash)

include hfree hsome

omit [DecidableEq ι] [Revm] in
/-- Beginnings of chains with the same hash at their end have the same height after them. -/
lemma heightAfter_eq_of_tipOf_eq {front front' : List FinalizedBlock}
    (hfront : ∀ f ∈ front, s.Upholds f.block) (hfront' : ∀ f ∈ front', s.Upholds f.block)
    (htip : tipOf front = tipOf front') : heightAfter front = heightAfter front' := by
  rcases List.eq_nil_or_concat front with rfl | ⟨first, f, rfl⟩ <;>
    rcases List.eq_nil_or_concat front' with rfl | ⟨first', f', rfl⟩
  · rfl
  · rw [List.concat_eq_append, tipOf_concat] at htip
    exact absurd htip.symm (hsome _ (hfront' f' (by simp)))
  · rw [List.concat_eq_append, tipOf_concat] at htip
    exact absurd htip (hsome _ (hfront f (by simp)))
  · rw [List.concat_eq_append, List.concat_eq_append, tipOf_concat, tipOf_concat] at htip
    rw [List.concat_eq_append, List.concat_eq_append, heightAfter_concat, heightAfter_concat,
      hfree (hfront f (by simp)) (hfront' f' (by simp)) htip]

include h

omit [Revm] in
/-- **No gaps.**  Each block that a node commits has the height after the blocks before it. -/
lemma Chained.heights {i : ι} :
    Throughout (fun before f => f.block.header.height = heightAfter before)
      (s.node i).disk.committed := by
  intro front f rest hsplit
  have hmem : f ∈ (s.node i).disk.committed := by
    rw [hsplit]
    exact List.mem_append_right _ List.mem_cons_self
  have hupholds : ∀ j, ∀ g ∈ (s.node j).disk.committed, s.Upholds g.block :=
    fun j g hg => ⟨j, .inl (List.mem_map_of_mem hg)⟩
  -- The block on which an honest node has locked is this one.
  obtain ⟨round, hsupported⟩ := (h.node i).committed f hmem
  obtain ⟨j, vote, hvote, hstep, hhash⟩ := h.exists_precommit hsupported
  obtain ⟨block, hblock, hsame⟩ := (h.successive j).precommits vote hvote hstep
    (hhash ▸ hsome _ (hupholds i f hmem))
  obtain rfl : block = f.block := hfree ⟨j, .inr hblock⟩ (hupholds i f hmem) (hsame.trans hhash)
  obtain ⟨front', hfront', hcontinues⟩ := (h.successive j).locks _ hblock
  have hparent := (h.ledger i).parent rfl hsplit
  rw [hcontinues.height]
  refine heightAfter_eq_of_tipOf_eq hfree hsome (fun g hg => hupholds j g (hfront'.subset hg))
    (fun g hg => hupholds i g ?_) (hcontinues.parent.symm.trans hparent)
  rw [hsplit]
  exact List.mem_append_left _ hg

omit [Revm] in
/-- Blocks of one height that two nodes have committed are the same. -/
lemma Chained.agrees {i j : ι} {f g : FinalizedBlock} (hf : f ∈ (s.node i).disk.committed)
    (hg : g ∈ (s.node j).disk.committed)
    (hheight : f.block.header.height = g.block.header.height) : f.block = g.block := by
  have hf' : s.Upholds f.block := ⟨i, .inl (List.mem_map_of_mem hf)⟩
  have hg' : s.Upholds g.block := ⟨j, .inl (List.mem_map_of_mem hg)⟩
  obtain ⟨r, hdecided⟩ := (h.node i).committed f hf
  obtain ⟨r', hdecided'⟩ := (h.node j).committed g hg
  rw [← hheight] at hdecided'
  exact hfree hf' hg' ((h.toSound.locks f.block.header.height).agree (decided_of_supported hdecided)
    (decided_of_supported hdecided') (hsome _ hf') (hsome _ hg'))

end

end Network

/-! ## Two nodes at the first block, one before it -/

section

open Transparent

lemma agreeingDeliveries_facts :
    let last := agreeingDeliveries.foldl threeHonest.deliver (Network.boot fun _ => blank)
    (∀ x ∈ Trace.along threeHonest.deliver (Network.boot fun _ => blank) agreeingDeliveries,
      threeHonest.Legal x.1 x.2 ∧ (threeHonest.engine x.2.1).Sighted (x.1.node x.2.1) x.2.2) ∧
    last.chain 0 = [earlyBlock] ∧ last.chain 1 = [earlyBlock] ∧ last.chain 2 = [] ∧
    (∀ i, ∀ block ∈ (last.node i).disk.lockedBlocks, block = earlyBlock) ∧
    earlyBlock.hash ≠ nilHash := by
  decide +kernel

end

end ZenoChain
