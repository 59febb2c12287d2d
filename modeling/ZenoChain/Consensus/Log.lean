/-
# The write-ahead log

What a store keeps of the log while effects are recorded, and what recovery makes of it.  A log
is only appended to, and compaction takes entries away; recovery never lowers the height.
-/
import ZenoChain.Consensus.Runs

namespace ZenoChain

open Word

/-! ## Entries of the log -/

section

variable [Hashing]

/-- An entry that is in the log after an effect was there before, or has just been appended. -/
lemma Disk.mem_log_record {d : Disk} {x : Effect} {entry : ConsensusWalEntry}
    (h : entry ∈ (d.record x).store.loadConsensusWal) :
    entry ∈ d.store.loadConsensusWal ∨ x = .write (.appendConsensusWal entry) := by
  rw [Store.loadConsensusWal, Table.mem_values_iff] at h ⊢
  obtain ⟨k, hk⟩ := h
  rcases x with w | _ | _ | _ | _
  · cases w with
    | appendConsensusWal entry' =>
      rw [Disk.store_record_write] at hk
      dsimp only [Store.apply] at hk
      rw [Table.getElem?_insert] at hk
      split at hk
      · rw [Option.some.inj hk]
        exact .inr rfl
      · exact .inl ⟨k, hk⟩
    | compactConsensusWal below =>
      rw [Disk.store_record_write] at hk
      simp only [Store.apply, Store.compactConsensusWal] at hk
      split at hk
      · dsimp only at hk
        rw [Std.ExtTreeMap.getElem?_filter', Option.filter_eq_some_iff] at hk
        exact .inl ⟨k, hk.1⟩
      · dsimp only at hk
        rw [Table.getElem?_foldl_erase] at hk
        split at hk
        · cases hk
        · exact .inl ⟨k, hk⟩
    | _ => exact .inl ⟨k, hk⟩
  all_goals exact .inl ⟨k, hk⟩

/-- An entry that is in the log after some effects was there before, or one of them appends it. -/
lemma Disk.mem_log_recordAll {d : Disk} {es : List Effect} {entry : ConsensusWalEntry}
    (h : entry ∈ (d.recordAll es).store.loadConsensusWal) :
    entry ∈ d.store.loadConsensusWal ∨ .write (.appendConsensusWal entry) ∈ es := by
  induction es generalizing d with
  | nil => exact .inl h
  | cons x es ih =>
    rcases ih h with hbefore | hlater
    · rcases Disk.mem_log_record hbefore with hlog | rfl
      · exact .inl hlog
      · exact .inr List.mem_cons_self
    · exact .inr (.tail _ hlater)

/-- Every index in the log is below the next free one. -/
def Disk.Numbered (d : Disk) : Prop :=
  ∀ k : ℕ, d.store.consensusWal[k]?.isSome → k < d.store.consensusWalNext

lemma Disk.Numbered.record {d : Disk} (h : d.Numbered) (x : Effect) : (d.record x).Numbered := by
  intro k hk
  rcases x with w | _ | _ | _ | _
  · cases w with
    | appendConsensusWal entry =>
      rw [Disk.store_record_write] at hk ⊢
      dsimp only [Store.apply] at hk ⊢
      rw [Table.getElem?_insert] at hk
      split at hk
      · omega
      · exact Nat.lt_succ_of_lt (h k hk)
    | compactConsensusWal below =>
      rw [Disk.store_record_write] at hk ⊢
      simp only [Store.apply, Store.compactConsensusWal] at hk ⊢
      split at hk
      · dsimp only at hk
        rw [Std.ExtTreeMap.getElem?_filter'] at hk
        obtain ⟨v, hv⟩ := Option.isSome_iff_exists.mp hk
        exact h k (Option.isSome_iff_exists.mpr ⟨v, (Option.filter_eq_some_iff.mp hv).1⟩)
      · dsimp only at hk
        rw [Table.getElem?_foldl_erase] at hk
        split at hk
        · cases hk
        · exact h k hk
    | _ => exact h k hk
  all_goals exact h k hk

lemma Disk.Numbered.recordAll {d : Disk} (h : d.Numbered) (es : List Effect) :
    (d.recordAll es).Numbered := by
  induction es generalizing d with
  | nil => exact h
  | cons x es ih => exact ih (h.record x)

/-- What is appended to the log comes last. -/
lemma Disk.Numbered.log_append {d : Disk} (h : d.Numbered) (entry : ConsensusWalEntry) :
    (d.record (.write (.appendConsensusWal entry))).store.loadConsensusWal =
      d.store.loadConsensusWal ++ [entry] :=
  Table.values_insert_last entry fun k hk => Nat.compare_eq_lt.mpr (h k hk)

/-- The effect neither appends to the log nor compacts it. -/
def Effect.sparesLog : Effect → Bool
  | .write (.appendConsensusWal _) | .write (.compactConsensusWal _) => false
  | _ => true

lemma Disk.log_record_sparing (d : Disk) {x : Effect} (h : x.sparesLog) :
    (d.record x).store.consensusWal = d.store.consensusWal := by
  rcases x with w | _ | _ | _ | _
  · cases w with
    | appendConsensusWal | compactConsensusWal => cases h
    | _ => rfl
  all_goals rfl

lemma Disk.log_recordAll_sparing (d : Disk) {es : List Effect} (h : ∀ x ∈ es, Effect.sparesLog x) :
    (d.recordAll es).store.consensusWal = d.store.consensusWal := by
  induction es generalizing d with
  | nil => rfl
  | cons x es ih =>
    obtain ⟨hx, hrest⟩ := List.forall_mem_cons.mp h
    rw [Disk.recordAll_cons, ih _ hrest, Disk.log_record_sparing d hx]

omit [Hashing] in
/-- There are no more entries than indices that have been given out. -/
lemma Disk.Numbered.length_le {d : Disk} (h : d.Numbered) :
    d.store.loadConsensusWal.length ≤ d.store.consensusWalNext := by
  have hkeys : d.store.consensusWal.toList.map Prod.fst ⊆ List.range d.store.consensusWalNext := by
    intro k hk
    obtain ⟨entry, hentry, rfl⟩ := List.mem_map.mp hk
    refine List.mem_range.mpr (h entry.1 ?_)
    rw [Table.mem_toList_iff.mp hentry]
    rfl
  have hle := ((Table.nodup_keys d.store.consensusWal).subperm hkeys).length_le
  rwa [List.length_map, List.length_range, ← List.length_map Prod.snd] at hle

/-- A compaction keeps the last entry, if it belongs to a height that is kept. -/
lemma Disk.Numbered.mem_compact {d : Disk} (h : d.Numbered) {entry : ConsensusWalEntry} {n : ℕ}
    (hn : n ≤ entry.height) {es : List Effect} (hes : ∀ x ∈ es, Effect.sparesLog x) :
    entry ∈ ((((d.record (.write (.appendConsensusWal entry))).recordAll es).record
      (.write (.compactConsensusWal n)))).store.loadConsensusWal := by
  set d₁ := (d.record (.write (.appendConsensusWal entry))).recordAll es with hd₁
  have hwal : d₁.store.consensusWal =
      d.store.consensusWal.insert d.store.consensusWalNext entry := by
    rw [hd₁, Disk.log_recordAll_sparing _ hes]
    rfl
  have hload : d₁.store.loadConsensusWal = d.store.loadConsensusWal ++ [entry] := by
    rw [← h.log_append entry, Store.loadConsensusWal, hwal]
    rfl
  rw [Store.loadConsensusWal, Table.mem_values_iff]
  refine ⟨d.store.consensusWalNext, ?_⟩
  rw [Disk.store_record_write]
  simp only [Store.apply, Store.compactConsensusWal]
  split
  · dsimp only
    rw [Std.ExtTreeMap.getElem?_filter', hwal, Table.getElem?_insert, if_pos rfl]
    exact Option.filter_eq_some_iff.mpr ⟨rfl, decide_eq_true hn⟩
  · dsimp only
    rw [Table.getElem?_foldl_erase, hload, hwal, Table.getElem?_insert, if_pos rfl]
    -- The entries whose positions are erased come before the last one.
    refine if_neg ?_
    rintro ⟨⟨entry', k⟩, hmem, hold, rfl⟩
    rw [List.mk_mem_zipIdx_iff_getElem?, List.getElem?_append_right h.length_le,
      List.getElem?_singleton] at hmem
    split at hmem
    · obtain rfl := Option.some.inj hmem
      exact absurd hold (not_lt.mpr hn)
    · cases hmem

/-- The effect leaves the log, the snapshot and the blocks alone. -/
def Effect.LeavesLog : Effect → Prop
  | .write (.appendConsensusWal _) | .write (.compactConsensusWal _)
  | .write (.putConsensusSnapshot _) | .write (.atomicCommitBlock ..)
  | .write (.pruneBlocksBelow _) => False
  | _ => True

lemma Disk.recordAll_leavesLog {es : List Effect} (h : ∀ x ∈ es, x.LeavesLog) (d : Disk) :
    (d.recordAll es).store.loadConsensusWal = d.store.loadConsensusWal ∧
    (d.recordAll es).store.startSnapshot = d.store.startSnapshot := by
  induction es generalizing d with
  | nil => exact ⟨rfl, rfl⟩
  | cons x es ih =>
    obtain ⟨hx, hrest⟩ := List.forall_mem_cons.mp h
    have hone : (d.record x).store.loadConsensusWal = d.store.loadConsensusWal ∧
        (d.record x).store.startSnapshot = d.store.startSnapshot := by
      rcases x with w | _ | _ | _ | _
      · cases w with
        | appendConsensusWal | compactConsensusWal | putConsensusSnapshot | atomicCommitBlock
        | pruneBlocksBelow => exact hx.elim
        | _ => exact ⟨rfl, rfl⟩
      all_goals exact ⟨rfl, rfl⟩
    rw [Disk.recordAll_cons]
    exact ⟨(ih hrest _).1.trans hone.1, (ih hrest _).2.trans hone.2⟩

end

/-! ## Recovered heights -/

namespace RecoveredState

lemma height_le_toHeight (r : RecoveredState) (n : ℕ) : r.height ≤ (r.toHeight n).height := by
  rw [toHeight]
  split
  · exact Nat.le_of_lt (by assumption)
  · exact le_rfl

lemma le_height_toHeight (r : RecoveredState) (n : ℕ) : n ≤ (r.toHeight n).height := by
  rw [toHeight]
  split
  · exact le_rfl
  · exact not_lt.mp (by assumption)

/-- No log entry lowers the recovered height. -/
lemma height_le_replay (r : RecoveredState) (entry : ConsensusWalEntry) :
    r.height ≤ (r.replay entry).height := by
  cases entry with
  | heightAdvanced n => exact r.height_le_toHeight n
  | commitFinalized height => exact r.height_le_toHeight (saturatingAdd 64 height 1)
  | snapshotPersisted height round =>
    rw [replay]
    split
    · show r.height ≤ height
      omega
    · exact le_rfl
  | roundAdvanced | locked | polkaObserved =>
    rw [replay]
    split <;> exact le_rfl
  | _ => exact le_rfl

lemma height_le_foldl (r : RecoveredState) (wal : List ConsensusWalEntry) :
    r.height ≤ (wal.foldl replay r).height := by
  induction wal generalizing r with
  | nil => exact le_rfl
  | cons entry wal ih => exact (r.height_le_replay entry).trans (ih _)

/-- A logged commit puts the recovered height above its own, wherever it stands in the log; at the
end of the range there is no room. -/
lemma le_height_of_commitFinalized {height round : ℕ} {blockHash : Hash32}
    {wal : List ConsensusWalEntry} (h : .commitFinalized height round blockHash ∈ wal)
    (r : RecoveredState) : saturatingAdd 64 height 1 ≤ (wal.foldl replay r).height := by
  obtain ⟨before, after, rfl⟩ := List.mem_iff_append.mp h
  rw [List.foldl_append, List.foldl_cons]
  exact ((before.foldl replay r).le_height_toHeight _).trans (height_le_foldl _ after)

lemma lt_height_of_commitFinalized {height round : ℕ} {blockHash : Hash32}
    {wal : List ConsensusWalEntry} (h : .commitFinalized height round blockHash ∈ wal)
    (hroom : height + 1 < 2 ^ 64) (r : RecoveredState) : height < (wal.foldl replay r).height := by
  have hle := le_height_of_commitFinalized h r
  rwa [saturatingAdd_of_lt hroom] at hle

end RecoveredState

/-! ## Entries of the past -/

/-- The entry was logged no later than in a height and round. -/
def ConsensusWalEntry.Past (height round : ℕ) : ConsensusWalEntry → Prop
  | snapshotPersisted h r | roundAdvanced h r => h < height ∨ (h = height ∧ r ≤ round)
  | commitFinalized h _ _ => h < height
  | entry => entry.height ≤ height

namespace ConsensusWalEntry

variable {entry : ConsensusWalEntry} {height round : ℕ}

lemma Past.height_le (h : entry.Past height round) : entry.height ≤ height := by
  cases entry with
  | snapshotPersisted | roundAdvanced => exact h.elim Nat.le_of_lt fun h => h.1.le
  | commitFinalized => exact Nat.le_of_lt h
  | _ => exact h

lemma past_of_height_lt (h : entry.height < height) : entry.Past height round := by
  cases entry with
  | snapshotPersisted | roundAdvanced => exact .inl h
  | commitFinalized => exact h
  | _ => exact Nat.le_of_lt h

lemma Past.mono {round' : ℕ} (h : entry.Past height round) (hround : round ≤ round') :
    entry.Past height round' := by
  cases entry with
  | snapshotPersisted | roundAdvanced => exact h.imp_right fun h => ⟨h.1, h.2.trans hround⟩
  | _ => exact h

end ConsensusWalEntry

namespace RecoveredState

variable {r : RecoveredState} {entry : ConsensusWalEntry} {wal : List ConsensusWalEntry}

/-- Recovery learns nothing from an entry of an earlier height. -/
lemma replay_of_height_lt (h : entry.height < r.height) : r.replay entry = r := by
  cases entry with
  | snapshotPersisted height round =>
    change height < r.height at h
    exact if_neg (by omega)
  | heightAdvanced n => exact if_neg (Nat.not_lt_of_lt h)
  | roundAdvanced => exact if_neg fun hc => h.ne hc.1
  | locked | polkaObserved => exact if_neg h.ne
  | commitFinalized height =>
    exact if_neg (Nat.not_lt.mpr (saturatingAdd_le.trans (Nat.succ_le_of_lt h)))
  | _ => rfl

lemma foldl_replay_of_height_lt (h : ∀ entry ∈ wal, entry.height < r.height) :
    wal.foldl replay r = r := by
  induction wal with
  | nil => rfl
  | cons entry wal ih =>
    obtain ⟨hentry, hrest⟩ := List.forall_mem_cons.mp h
    rw [List.foldl_cons, replay_of_height_lt hentry, ih hrest]

lemma replay_snapshotPersisted_of_past {height round : ℕ}
    (h : height < r.height ∨ (height = r.height ∧ round ≤ r.round)) :
    r.replay (.snapshotPersisted height round) = r := by
  rw [replay]
  split
  · obtain ⟨rfl, rfl⟩ : height = r.height ∧ round = r.round := by omega
    rfl
  · rfl

lemma replay_roundAdvanced_of_past {height round : ℕ}
    (h : height < r.height ∨ (height = r.height ∧ round ≤ r.round)) :
    r.replay (.roundAdvanced height round) = r :=
  if_neg (by omega)

lemma replay_heightAdvanced_of_past {n : ℕ} (h : n ≤ r.height) : r.replay (.heightAdvanced n) = r :=
  if_neg (Nat.not_lt.mpr h)

/-- An entry of the past moves recovery neither to another height nor to another round, and what
it says of the locks does not depend on the round. -/
lemma replay_of_past {round : ℕ} (h : entry.Past r.height r.round) (hround : r.round ≤ round) :
    (r.replay entry).height = r.height ∧ (r.replay entry).round = r.round ∧
      ({ r with round } : RecoveredState).replay entry = { r.replay entry with round } := by
  have hlater : entry.Past r.height round := h.mono hround
  cases entry with
  | snapshotPersisted =>
    rw [replay_snapshotPersisted_of_past h]
    exact ⟨rfl, rfl, replay_snapshotPersisted_of_past hlater⟩
  | roundAdvanced =>
    rw [replay_roundAdvanced_of_past h]
    exact ⟨rfl, rfl, replay_roundAdvanced_of_past hlater⟩
  | heightAdvanced n =>
    have hpast : n ≤ r.height := h
    rw [replay_heightAdvanced_of_past hpast]
    exact ⟨rfl, rfl, replay_heightAdvanced_of_past hpast⟩
  | commitFinalized height r' blockHash =>
    have hlt : (ConsensusWalEntry.commitFinalized height r' blockHash).height < r.height := h
    rw [replay_of_height_lt hlt]
    exact ⟨rfl, rfl, replay_of_height_lt hlt⟩
  | locked | polkaObserved =>
    simp only [replay]
    split <;> exact ⟨rfl, rfl, rfl⟩
  | _ => exact ⟨rfl, rfl, rfl⟩

/-- Nor do any number of them. -/
lemma foldl_replay_of_past {round : ℕ} (h : ∀ entry ∈ wal, entry.Past r.height r.round)
    (hround : r.round ≤ round) :
    wal.foldl replay { r with round } = { wal.foldl replay r with round } := by
  induction wal generalizing r with
  | nil => rfl
  | cons entry wal ih =>
    obtain ⟨hentry, hrest⟩ := List.forall_mem_cons.mp h
    obtain ⟨hheight, hsame, hlocks⟩ := replay_of_past hentry hround
    rw [List.foldl_cons, List.foldl_cons, hlocks]
    refine ih (fun entry' hentry' => ?_) (hsame ▸ hround)
    rw [hheight, hsame]
    exact hrest entry' hentry'

/-- Entries below a bound that the height has reached may as well be left out: no entry lowers the
height, so each of them stands below it when its turn comes. -/
lemma foldl_replay_filter {bound : ℕ} (h : bound ≤ r.height) (wal : List ConsensusWalEntry) :
    (wal.filter fun entry => bound ≤ entry.height).foldl replay r = wal.foldl replay r := by
  induction wal generalizing r with
  | nil => rfl
  | cons entry wal ih =>
    rw [List.filter_cons, List.foldl_cons]
    by_cases hentry : bound ≤ entry.height
    · rw [if_pos (decide_eq_true hentry), List.foldl_cons]
      exact ih (h.trans (r.height_le_replay entry))
    · have hold : entry.height < r.height := (Nat.lt_of_not_le hentry).trans_le h
      rw [if_neg (by simpa using hentry), replay_of_height_lt hold, ih h]

end RecoveredState

/-- **Compaction is invisible to recovery.**  A log from which the entries below a bound have been
taken, in whatever order they stand, recovers from a snapshot at or above the bound as the full
log does; so does the compacted log of a memory store. -/
theorem recoverSnapshot_compact {snapshot : ConsensusSnapshot} {bound : ℕ}
    (h : bound ≤ snapshot.height) :
    (∀ wal : List ConsensusWalEntry,
      recoverSnapshot snapshot (wal.filter fun entry => bound ≤ entry.height) =
        recoverSnapshot snapshot wal) ∧
    ∀ s : Store, s.backend = .memory →
      recoverSnapshot snapshot (s.compactConsensusWal bound).loadConsensusWal =
        recoverSnapshot snapshot s.loadConsensusWal := by
  have hfilter : ∀ wal : List ConsensusWalEntry,
      recoverSnapshot snapshot (wal.filter fun entry => bound ≤ entry.height) =
        recoverSnapshot snapshot wal := RecoveredState.foldl_replay_filter h
  refine ⟨hfilter, fun s hs => ?_⟩
  rw [Store.loadConsensusWal_compact hs, hfilter]

/-- Entries of the heights 3 and 4 make no difference from a snapshot of height 5 on, even behind
entries of the height 6. -/
theorem recoverSnapshot_compact_five :
    recoverSnapshot ⟨5, 2⟩ [.heightAdvanced 6, .roundAdvanced 6 1] =
      recoverSnapshot ⟨5, 2⟩
        [.snapshotPersisted 4 9, .heightAdvanced 6, .commitFinalized 3 0 0, .roundAdvanced 4 7,
          .roundAdvanced 6 1] :=
  (recoverSnapshot_compact (le_refl (ConsensusSnapshot.mk 5 2).height)).1
    [.snapshotPersisted 4 9, .heightAdvanced 6, .commitFinalized 3 0 0, .roundAdvanced 4 7,
      .roundAdvanced 6 1]

end ZenoChain
