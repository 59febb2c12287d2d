/-
# The consensus log

Appends and compactions, on both backends, against a log that is filtered.  The memory backend
filters.  The RocksDB backend turns the positions of the loaded entries into keys, which are the
keys of these entries only as long as nothing below them has been deleted.
-/
import ZenoChain.Base.Trace
import ZenoChain.Chain.Backends
import ZenoChain.Execution.Transparent

namespace ZenoChain

open Codec Word

/-- The writing operations on the log. -/
inductive WalOp
  | append (entry : ConsensusWalEntry)
  | compact (belowHeight : ℕ)

namespace WalOp

/-- An operation as a write of the store. -/
def write : WalOp → Write
  | append entry => .appendConsensusWal entry
  | compact belowHeight => .compactConsensusWal belowHeight

/-- The operation leaves an entry that stands in the log. -/
def Keeps (entry : ConsensusWalEntry) : WalOp → Prop
  | append _ => True
  | compact belowHeight => belowHeight ≤ entry.height

instance (entry : ConsensusWalEntry) : DecidablePred (Keeps entry)
  | append _ => inferInstanceAs (Decidable True)
  | compact belowHeight => inferInstanceAs (Decidable (belowHeight ≤ entry.height))

/-- The appended entries that are not below the bound of any later compaction, in the order in
which they were appended. -/
def survivors : List WalOp → List ConsensusWalEntry
  | [] => []
  | append entry :: ops =>
    (if ∀ op ∈ ops, Keeps entry op then [entry] else []) ++ survivors ops
  | compact _ :: ops => survivors ops

/-- A log that is filtered. -/
def onLog (log : List ConsensusWalEntry) : WalOp → List ConsensusWalEntry
  | append entry => log ++ [entry]
  | compact belowHeight => log.filter fun entry => belowHeight ≤ entry.height

@[simp] lemma keeps_append (entry entry' : ConsensusWalEntry) :
    Keeps entry (append entry') ↔ True := Iff.rfl

@[simp] lemma keeps_compact (entry : ConsensusWalEntry) (belowHeight : ℕ) :
    Keeps entry (compact belowHeight) ↔ belowHeight ≤ entry.height := Iff.rfl

lemma foldl_onLog (log : List ConsensusWalEntry) (ops : List WalOp) :
    ops.foldl onLog log = (log.filter fun entry => ∀ op ∈ ops, Keeps entry op) ++ survivors ops := by
  induction ops generalizing log with
  | nil => simp [survivors]
  | cons op ops ih =>
    rw [List.foldl_cons, ih]
    cases op with
    | append entry =>
      have hlog : (log.filter fun entry' => ∀ op ∈ append entry :: ops, Keeps entry' op) =
          log.filter fun entry' => ∀ op ∈ ops, Keeps entry' op :=
        List.filter_congr fun entry' _ => by simp only [List.forall_mem_cons, keeps_append, true_and]
      have hentry : ([entry].filter fun entry' => ∀ op ∈ ops, Keeps entry' op) =
          if ∀ op ∈ ops, Keeps entry op then [entry] else [] := by
        by_cases h : ∀ op ∈ ops, Keeps entry op
        · rw [if_pos h]
          exact List.filter_eq_self.mpr (List.forall_mem_singleton.mpr (decide_eq_true h))
        · rw [if_neg h]
          exact List.filter_eq_nil_iff.mpr (List.forall_mem_singleton.mpr (by simpa using h))
      rw [onLog, survivors, List.filter_append, List.append_assoc, hlog, hentry]
    | compact belowHeight =>
      have hlog : (log.filter fun entry' => ∀ op ∈ compact belowHeight :: ops, Keeps entry' op) =
          (log.filter fun entry' => belowHeight ≤ entry'.height).filter
            fun entry' => ∀ op ∈ ops, Keeps entry' op := by
        rw [List.filter_filter]
        refine List.filter_congr fun entry' _ => ?_
        rw [Bool.and_comm, ← Bool.decide_and]
        simp only [List.forall_mem_cons, keeps_compact]
      rw [onLog, survivors, hlog]

/-- The survivors are what filtering leaves. -/
lemma survivors_eq (ops : List WalOp) : survivors ops = ops.foldl onLog [] := by
  rw [foldl_onLog]
  rfl

end WalOp

/-! ## In memory -/

namespace Store

variable [Hashing] {s : Store} {op : WalOp}

/-- The store after an operation on the log. -/
def onLog (s : Store) (op : WalOp) : Store := s.apply op.write

/-- A compaction returns the number of entries that it removes. -/
def Reports (s : Store) : WalOp → Prop
  | .append _ => True
  | .compact belowHeight =>
    ChainStore.count { store := s } (.write (.compactConsensusWal belowHeight)) +
      (s.compactConsensusWal belowHeight).loadConsensusWal.length = s.loadConsensusWal.length

/-- The log of a memory store: its indexes are below the next one. -/
structure MemoryLog (s : Store) : Prop where
  backend : s.backend = .memory
  below : ∀ i : ℕ, s.consensusWal[i]?.isSome → i < s.consensusWalNext

lemma MemoryLog.step (h : s.MemoryLog) (op : WalOp) :
    (s.onLog op).MemoryLog ∧ (s.onLog op).loadConsensusWal = WalOp.onLog s.loadConsensusWal op := by
  cases op with
  | append entry =>
    refine ⟨⟨h.backend, fun i hi => ?_⟩, ?_⟩
    · replace hi : (s.consensusWal.insert s.consensusWalNext entry)[i]?.isSome := hi
      show i < s.consensusWalNext + 1
      rw [Table.getElem?_insert] at hi
      split at hi
      · omega
      · have := h.below i hi
        omega
    · exact Table.values_insert_last entry fun i hi => Nat.compare_eq_lt.mpr (h.below i hi)
  | compact belowHeight =>
    have hfilter : s.onLog (.compact belowHeight) =
        { s with consensusWal := s.consensusWal.filter fun _ e => belowHeight ≤ e.height } := by
      show s.compactConsensusWal belowHeight = _
      rw [compactConsensusWal, h.backend]
    rw [hfilter]
    refine ⟨⟨h.backend, fun i hi => h.below i ?_⟩, ?_⟩
    · replace hi : (s.consensusWal.filter fun _ e => belowHeight ≤ e.height)[i]?.isSome := hi
      rw [Std.ExtTreeMap.getElem?_filter'] at hi
      obtain ⟨e, he⟩ := Option.isSome_iff_exists.mp hi
      rw [(Option.filter_eq_some_iff.mp he).1]
      rfl
    · rw [← hfilter]
      exact loadConsensusWal_compact h.backend belowHeight

/-- The log of a memory store is filtered, and a compaction returns what it removes. -/
lemma MemoryLog.run (h : s.MemoryLog) (ops : List WalOp) :
    (∀ l m, ops = l ++ m →
      (l.foldl onLog s).loadConsensusWal = l.foldl WalOp.onLog s.loadConsensusWal) ∧
    ∀ e ∈ Trace.along onLog s ops, e.1.Reports e.2 := by
  have hall : ∀ e ∈ Trace.along onLog s ops, e.1.MemoryLog :=
    (Trace.keeps (C := fun _ _ => True) (fun s op (hlog : s.MemoryLog) _ => (hlog.step op).1) h
      fun _ _ => trivial).1
  refine ⟨?_, fun e he => ?_⟩
  · exact Trace.follows_iff.mpr fun e he => ((hall e he).step e.2).2
  · obtain ⟨s, op⟩ := e
    have hlog := hall (s, op) he
    cases op with
    | append entry => trivial
    | compact belowHeight =>
      have hstep : (s.compactConsensusWal belowHeight).loadConsensusWal =
          s.loadConsensusWal.filter fun entry => belowHeight ≤ entry.height :=
        (hlog.step (.compact belowHeight)).2
      have hlength := List.length_filter_le (fun entry => decide (belowHeight ≤ entry.height))
        s.loadConsensusWal
      rw [Reports, ChainStore.count, hlog.backend]
      dsimp only
      rw [hstep]
      omega

end Store

/-! ## In the database -/

namespace RocksStore

/-- The entries of the log under their indexes. -/
def log (r : RocksStore) : BTreeMap ℕ ConsensusWalEntry := r.consensusWal.value?.getD ∅

/-- The next index. -/
def next (r : RocksStore) : ℕ :=
  ((r.getValue ℕ (metaKey .consensusWalNext)).value?.getD none).getD 0

/-- Every loaded entry that a compaction is to remove stands under the index that is its
position. -/
def Aligned (r : RocksStore) : WalOp → Prop
  | .append _ => True
  | .compact belowHeight => Positions.Aligned (below belowHeight) r.log.toList

variable [Hashing] {r r' : RocksStore}

/-- The store after an operation on the log. -/
def onLog (r : RocksStore) (op : WalOp) : RocksStore :=
  match r.call (.write op.write) with
  | .ok (_, r') => r'
  | _ => r

/-- A compaction returns the number of entries that it removes. -/
def Reports (r : RocksStore) : WalOp → Prop
  | .append _ => True
  | .compact belowHeight => ∀ n r', r.call (.write (.compactConsensusWal belowHeight)) = .ok (n, r') →
    n + (Table.values r'.log).length = (Table.values r.log).length

omit [Hashing] in
lemma log_ok (h : r.WellFormed) : r.consensusWal = .ok r.log ∧
    (∀ i, i < 2 ^ 64 → r.log[i]?.map encode = r.read (.consensusWal i)) ∧
      ∀ i, ¬ i < 2 ^ 64 → r.log[i]? = none := by
  obtain ⟨t, ht, hread, hnot⟩ := consensusWal_ok h
  have hlog : r.log = t := by
    rw [log, ht]
    rfl
  rw [hlog]
  exact ⟨ht, hread, hnot⟩

omit [Hashing] in
lemma load_ok (h : r.WellFormed) : r.loadConsensusWal = .ok (Table.values r.log) := by
  rw [loadConsensusWal, (log_ok h).1]
  rfl

omit [Hashing] in
/-- Logs are the same if the same stands under the keys of the log. -/
lemma log_eq (h : r'.WellFormed) {t : BTreeMap ℕ ConsensusWalEntry}
    (hread : ∀ i, i < 2 ^ 64 → r'.read (.consensusWal i) = t[i]?.map encode)
    (hnot : ∀ i, ¬ i < 2 ^ 64 → t[i]? = none) : r'.log = t := by
  obtain ⟨-, hlog, hout⟩ := log_ok h
  refine Std.ExtTreeMap.ext_getElem? fun i => ?_
  by_cases hi : i < 2 ^ 64
  · refine Option.map_injective (fun _ _ => encode_inj) ?_
    rw [hlog i hi, hread i hi]
  · rw [hout i hi, hnot i hi]

omit [Hashing] in
lemma next_eq {n : ℕ} (h : r.read (.metadata .consensusWalNext) = some (encode n)) : r.next = n := by
  have hget : r.getValue ℕ (metaKey .consensusWalNext) = .ok (some n) :=
    getValue_of_read (k := .metadata .consensusWalNext) h
  rw [next, hget]
  rfl

omit [Hashing] in
lemma next_congr (h : r'.read (.metadata .consensusWalNext) = r.read (.metadata .consensusWalNext)) :
    r'.next = r.next := by
  have hdb : r'.db[metaKey .consensusWalNext]? = r.db[metaKey .consensusWalNext]? := h
  rw [next, next, getValue, getValue, hdb]

/-- An append puts the entry under the next index. -/
lemma onLog_append (h : r.WellFormed) (entry : ConsensusWalEntry) :
    (r.onLog (.append entry)).WellFormed ∧
      (r.onLog (.append entry)).log = r.log.insert r.next entry ∧
      (r.onLog (.append entry)).next = wrappingAdd 64 r.next 1 := by
  obtain ⟨n, hn, hstored, hok⟩ := appendConsensusWal_ok h entry
  have hnext : r.next = n := by
    rcases hstored with hsome | ⟨hnone, rfl⟩
    · exact next_eq hsome
    · have hget : r.getValue ℕ (metaKey .consensusWalNext) = .ok none :=
        getValue_of_read (k := .metadata .consensusWalNext) hnone
      rw [next, hget]
      rfl
  have hrun : r.onLog (.append entry) =
      (r.putValue (key .consensusWal (u64 n)) entry).putValue (metaKey .consensusWalNext)
        (wrappingAdd 64 n 1) := by
    rw [onLog, WalOp.write, call, hok]
    rfl
  have hfits : (RocksKey.consensusWal n).Fits := RocksKey.fits_consensusWal hn
  have hentry : (r.putValue (key .consensusWal (u64 n)) entry).WellFormed :=
    h.insert (k := .consensusWal n) hfits trivial
  have hword : Holds (.metadata .consensusWalNext) (encode (wrappingAdd 64 n 1)) :=
    Nat.mod_lt _ (Nat.two_pow_pos 64)
  have hwell := hentry.insert (k := .metadata .consensusWalNext) trivial hword
  rw [hrun, hnext]
  refine ⟨hwell, log_eq hwell (fun i hi => ?_) fun i hi => ?_, next_eq ?_⟩
  · have hread := @read_insert (r.putValue (key .consensusWal (u64 n)) entry)
      (.metadata .consensusWalNext) (.consensusWal i) (encode (wrappingAdd 64 n 1)) trivial
      (RocksKey.fits_consensusWal hi)
    refine hread.trans ((if_neg (by intro h; cases h)).trans ?_)
    have hread' := @read_insert r (.consensusWal n) (.consensusWal i) (encode entry) hfits
      (RocksKey.fits_consensusWal hi)
    refine hread'.trans ?_
    rw [Table.getElem?_insert, ← (log_ok h).2.1 i hi, apply_ite (Option.map encode)]
    exact if_congr ⟨RocksKey.consensusWal.inj, congrArg _⟩ rfl rfl
  · have hne : i ≠ n := by
      rintro rfl
      exact hi hn
    rw [Table.getElem?_insert, if_neg hne, (log_ok h).2.2 i hi]
  · have hread := @read_insert (r.putValue (key .consensusWal (u64 n)) entry)
      (.metadata .consensusWalNext) (.metadata .consensusWalNext) (encode (wrappingAdd 64 n 1))
      trivial trivial
    exact hread.trans (if_pos rfl)

/-- A compaction takes out the entries whose indexes are positions of entries below the bound. -/
lemma onLog_compact (h : r.WellFormed) (belowHeight : ℕ) :
    (r.onLog (.compact belowHeight)).WellFormed ∧
      (r.onLog (.compact belowHeight)).log = r.log.filter
        (fun i _ => ! Positions.hit (below belowHeight) r.log.toList i) ∧
      (r.onLog (.compact belowHeight)).next = r.next ∧
      r.call (.write (.compactConsensusWal belowHeight)) =
        .ok (((Table.values r.log).filter (below belowHeight)).length,
          r.onLog (.compact belowHeight)) := by
  obtain ⟨hlog, hread, hnot⟩ := log_ok h
  obtain ⟨r', hok, hwell, hread'⟩ := compactConsensusWal_ok h hlog hnot belowHeight
  have hrun : r.onLog (.compact belowHeight) = r' := by
    rw [onLog, WalOp.write, call, hok]
  rw [hrun]
  refine ⟨hwell, log_eq hwell (fun i hi => ?_) fun i hi => ?_, next_congr ?_, hok⟩
  · rw [Std.ExtTreeMap.getElem?_filter']
    rcases hread' (.consensusWal i) (RocksKey.fits_consensusWal hi) with
      ⟨hnone, j, hj, hhit⟩ | ⟨hsame, hkeep⟩
    · obtain rfl := RocksKey.consensusWal.inj hj
      rw [hnone, Option.filter_eq_none_iff.mpr fun _ _ => by simp [hhit], Option.map_none]
    · rw [hsame, ← hread i hi]
      rcases r.log[i]? with _ | entry
      · rfl
      · rw [Option.filter_some, if_pos (by rw [hkeep i rfl]; rfl)]
  · rw [Std.ExtTreeMap.getElem?_filter', hnot i hi, Option.filter_none]
  · rcases hread' (.metadata .consensusWalNext) trivial with ⟨-, j, hj, -⟩ | ⟨hsame, -⟩
    · cases hj
    · exact hsame

/-- The log of a database after some appends: its indexes are below the number of the appends. -/
structure Sequential (n : ℕ) (r : RocksStore) : Prop where
  wellFormed : r.WellFormed
  next : r.next = n
  below : ∀ i : ℕ, r.log[i]?.isSome → i < n

lemma Sequential.append {n : ℕ} (h : r.Sequential n) (hn : n + 1 < 2 ^ 64)
    (entry : ConsensusWalEntry) : (r.onLog (.append entry)).Sequential (n + 1) := by
  obtain ⟨hwell, hlog, hnext⟩ := onLog_append h.wellFormed entry
  refine ⟨hwell, ?_, fun i hi => ?_⟩
  · rw [hnext, h.next, wrappingAdd_of_lt hn]
  · rw [hlog, h.next, Table.getElem?_insert] at hi
    split at hi
    · omega
    · have := h.below i hi
      omega

lemma Sequential.compact {n : ℕ} (h : r.Sequential n) (belowHeight : ℕ) :
    (r.onLog (.compact belowHeight)).Sequential n := by
  obtain ⟨hwell, hlog, hnext, -⟩ := onLog_compact h.wellFormed belowHeight
  refine ⟨hwell, hnext.trans h.next, fun i hi => h.below i ?_⟩
  rw [hlog, Std.ExtTreeMap.getElem?_filter'] at hi
  obtain ⟨e, he⟩ := Option.isSome_iff_exists.mp hi
  rw [(Option.filter_eq_some_iff.mp he).1]
  rfl

/-- **One operation.**  The log is filtered, and a compaction returns what it removes, exactly if
the entries to be removed stand under their positions. -/
lemma Sequential.step_iff {n : ℕ} (h : r.Sequential n) (op : WalOp) :
    (Table.values (r.onLog op).log = WalOp.onLog (Table.values r.log) op ↔ r.Aligned op) ∧
      (r.Aligned op → r.Reports op) := by
  cases op with
  | append entry =>
    refine ⟨iff_of_true ?_ trivial, fun _ => trivial⟩
    rw [(onLog_append h.wellFormed entry).2.1, h.next]
    exact Table.values_insert_last entry fun i hi => Nat.compare_eq_lt.mpr (h.below i hi)
  | compact belowHeight =>
    obtain ⟨-, hlog, -, hok⟩ := onLog_compact h.wellFormed belowHeight
    have hvalues : Table.values (r.onLog (.compact belowHeight)).log = (r.log.toList.filter fun e =>
        ! Positions.hit (RocksStore.below belowHeight) r.log.toList e.1).map Prod.snd := by
      rw [hlog, Table.values, Std.ExtTreeMap.toList_filter]
    have hspec : WalOp.onLog (Table.values r.log) (.compact belowHeight) =
        (r.log.toList.map Prod.snd).filter fun v => ! RocksStore.below belowHeight v := by
      rw [WalOp.onLog, Table.values]
      refine List.filter_congr fun entry _ => ?_
      simp only [RocksStore.below, ← decide_not, Nat.not_lt]
    have hiff := Positions.filter_hit_eq_iff (p := RocksStore.below belowHeight) (ordered_toList r.log)
    rw [← hvalues, ← hspec] at hiff
    refine ⟨hiff, fun haligned m r' hcall => ?_⟩
    rw [hok] at hcall
    obtain ⟨rfl, rfl⟩ := Prod.mk.inj (Outcome.ok.inj hcall)
    rw [hiff.mpr haligned, hspec, ← Table.values]
    have hsplit := List.length_eq_length_filter_add (l := Table.values r.log) (RocksStore.below belowHeight)
    omega

/-- The number of appends among some operations. -/
def appends (ops : List WalOp) : ℕ :=
  (ops.filter fun op => match op with
    | .append _ => true
    | .compact _ => false).length

lemma sequential_along {n : ℕ} (h : r.Sequential n) {ops : List WalOp}
    (hcount : n + appends ops < 2 ^ 64) :
    ∀ e ∈ Trace.along onLog r ops, ∃ m, e.1.Sequential m := by
  induction ops generalizing r n with
  | nil => exact nofun
  | cons op ops ih =>
    refine List.forall_mem_cons.mpr ⟨⟨n, h⟩, ?_⟩
    cases op with
    | append entry =>
      have happends : appends (.append entry :: ops) = appends ops + 1 := rfl
      exact ih (h.append (by omega) entry) (by omega)
    | compact belowHeight => exact ih (h.compact belowHeight) hcount

lemma wellFormed_run (ops : List WalOp) : (ops.foldl onLog {}).WellFormed := by
  have hstep : ∀ (r : RocksStore) (op : WalOp), r.WellFormed → True → (r.onLog op).WellFormed := by
    intro r op h _
    cases op with
    | append entry => exact (onLog_append h entry).1
    | compact belowHeight => exact (onLog_compact h belowHeight).1
  exact (Trace.keeps hstep wellFormed_empty fun e (_ : e ∈ Trace.along onLog {} ops) => trivial).2

omit [Hashing] in
lemma sequential_empty : Sequential 0 {} := by
  have hlog : RocksStore.log {} = ∅ := rfl
  refine ⟨wellFormed_empty, rfl, fun i hi => ?_⟩
  rw [hlog] at hi
  simp at hi

end RocksStore

/-- **The log is a filtered log.**  In memory it always is.  In the database, over fewer than
`2 ^ 64` appends, the log loaded after every prefix of a run consists of the entries that are not
below the bound of a later compaction, and every compaction returns what it removes, exactly if
every compaction meets a log in which the entries below its bound stand under their positions. -/
theorem wal_filtered_iff [Hashing] (ops : List WalOp) (hcount : RocksStore.appends ops < 2 ^ 64) :
    ((∀ l m, ops = l ++ m →
        (l.foldl Store.onLog { backend := .memory }).loadConsensusWal = WalOp.survivors l) ∧
      ∀ e ∈ Trace.along Store.onLog { backend := .memory } ops, e.1.Reports e.2) ∧
    (((∀ l m, ops = l ++ m →
          (l.foldl RocksStore.onLog {}).loadConsensusWal = .ok (WalOp.survivors l)) ∧
        ∀ e ∈ Trace.along RocksStore.onLog {} ops, e.1.Reports e.2) ↔
      ∀ e ∈ Trace.along RocksStore.onLog {} ops, e.1.Aligned e.2) := by
  refine ⟨?_, ?_⟩
  · have hempty : Store.MemoryLog { backend := .memory } := ⟨rfl, fun i hi => by simp at hi⟩
    obtain ⟨hload, hreports⟩ := hempty.run ops
    refine ⟨fun l m hl => ?_, hreports⟩
    rw [hload l m hl, WalOp.survivors_eq]
    rfl
  · have hseq := RocksStore.sequential_along RocksStore.sequential_empty
      (show 0 + RocksStore.appends ops < 2 ^ 64 by rwa [Nat.zero_add])
    have hload : (∀ l m, ops = l ++ m →
          (l.foldl RocksStore.onLog {}).loadConsensusWal = .ok (WalOp.survivors l)) ↔
        ∀ l m, ops = l ++ m → Table.values (l.foldl RocksStore.onLog {}).log =
          l.foldl WalOp.onLog (Table.values (RocksStore.log {})) := by
      refine forall_congr' fun l => forall_congr' fun m => imp_congr_right fun _ => ?_
      rw [RocksStore.load_ok (RocksStore.wellFormed_run l), WalOp.survivors_eq, Outcome.ok.injEq]
      rfl
    rw [hload, Trace.follows_iff (f := fun r => Table.values (RocksStore.log r))]
    constructor
    · rintro ⟨hsteps, -⟩ e he
      obtain ⟨n, hn⟩ := hseq e he
      exact (hn.step_iff e.2).1.mp (hsteps e he)
    · intro haligned
      refine ⟨fun e he => ?_, fun e he => ?_⟩
      · obtain ⟨n, hn⟩ := hseq e he
        exact (hn.step_iff e.2).1.mpr (haligned e he)
      · obtain ⟨n, hn⟩ := hseq e he
        exact (hn.step_iff e.2).2 (haligned e he)

/-! ## Two compactions -/

section

open Transparent

/-- Entries of the heights 1 and 2 are appended and the log is compacted below 2; after an entry of
height 3 it is compacted below 3. -/
def twoCompactions : List WalOp :=
  [.append (.heightAdvanced 1), .append (.heightAdvanced 2), .compact 2,
    .append (.heightAdvanced 3), .compact 3]

/-- The second compaction of the database deletes the key 0, where nothing stands any more.  It
returns 1 and removes nothing; the entry of height 2 stays. -/
theorem twoCompactions_not_filtered :
    (twoCompactions.foldl RocksStore.onLog {}).loadConsensusWal =
      .ok [.heightAdvanced 2, .heightAdvanced 3] ∧
    WalOp.survivors twoCompactions = [.heightAdvanced 3] ∧
    ((twoCompactions.take 4).foldl RocksStore.onLog {}).loadConsensusWal =
      .ok [.heightAdvanced 2, .heightAdvanced 3] ∧
    (((twoCompactions.take 4).foldl RocksStore.onLog {}).call
      (.write (.compactConsensusWal 3))).value?.map Prod.fst = some 1 := by
  decide +kernel

/-- The first compaction removes what it is to remove. -/
theorem firstCompaction_filtered :
    ((twoCompactions.take 4).foldl RocksStore.onLog {}).loadConsensusWal =
      .ok (WalOp.survivors (twoCompactions.take 4)) := by
  have haligned : ∀ e ∈ Trace.along RocksStore.onLog {} (twoCompactions.take 4),
      e.1.Aligned e.2 := by
    simp only [twoCompactions, List.take_succ_cons, List.take_zero, Trace.along, List.forall_mem_cons]
    refine ⟨trivial, trivial, ?_, trivial, List.forall_mem_nil _⟩
    show Positions.Aligned _ _
    decide +kernel
  exact ((wal_filtered_iff (twoCompactions.take 4) (by decide)).2.mpr haligned).1 _ [] rfl

end

end ZenoChain
