/-
# Duplicate messages

A connection remembers the messages that it has accepted last.  The set by which it looks them up
and the queue by which it forgets the oldest one hold the same messages, and these are the last
ones that it accepted, up to the limit.
-/
import ZenoChain.Base.Window
import ZenoChain.Peers.Connections

namespace ZenoChain.RecentMessages

open Window

variable {recent : RecentMessages} {history order : List Hash32} {id : Hash32}

/-- Forgetting keeps the last messages, in the set and in the queue. -/
lemma evict_eq (hnodup : order.Nodup) :
    evict order.toFinset order = ⟨(order.rtake maxRecent).toFinset, order.rtake maxRecent⟩ := by
  induction order with
  | nil => rfl
  | cons oldest order ih =>
    obtain ⟨hnew, hrest⟩ := List.nodup_cons.mp hnodup
    rw [evict]
    split
    · rename_i hfull
      have herase : (oldest :: order).toFinset.erase oldest = order.toFinset := by
        rw [List.toFinset_cons, Finset.erase_insert (by simpa using hnew)]
      have htake : (oldest :: order).rtake maxRecent = order.rtake maxRecent := by
        rw [List.length_cons] at hfull
        rw [List.rtake, List.rtake, List.length_cons, Nat.succ_sub (by omega), List.drop_succ_cons]
      rw [herase, ih hrest, htake]
    · rename_i hroom
      have htake : (oldest :: order).rtake maxRecent = oldest :: order := by
        rw [List.rtake, Nat.sub_eq_zero_of_le (not_lt.mp hroom), List.drop_zero]
      rw [htake]

/-- The set and the queue hold the last messages of a history of accepted ones. -/
structure Holds (recent : RecentMessages) (history : List Hash32) : Prop where
  order : recent.order = history.rtake maxRecent
  seen : recent.seen = recent.order.toFinset
  nodup : (history.rtake maxRecent).Nodup

lemma holds_window (h : (history.rtake maxRecent).Nodup) :
    Holds ⟨(history.rtake maxRecent).toFinset, history.rtake maxRecent⟩ history where
  order := by dsimp only
  seen := by dsimp only
  nodup := h

lemma Holds.mem_seen_iff (h : recent.Holds history) :
    id ∈ recent.seen ↔ id ∈ history.rtake maxRecent := by
  rw [h.seen, List.mem_toFinset, h.order]

/-- A message is refused exactly if it is in the window. -/
lemma Holds.refused_iff (h : recent.Holds history) :
    (recent.remember id).1 = false ↔ id ∈ history.rtake maxRecent := by
  rw [← h.mem_seen_iff, remember]
  split <;> simp [*]

lemma Holds.remember (h : recent.Holds history) (id : Hash32) :
    (recent.remember id).2.Holds (accept maxRecent history id) := by
  have hnodup : ((accept maxRecent history id).rtake maxRecent).Nodup := nodup_accept h.nodup
  rw [RecentMessages.remember]
  split
  · rename_i hold
    rwa [accept, if_pos (h.mem_seen_iff.mp hold)]
  · rename_i hseen
    have hnew : id ∉ history.rtake maxRecent := h.mem_seen_iff.not.mp hseen
    have hall : (recent.order ++ [id]).Nodup := by
      rw [h.order]
      exact List.nodup_append.mpr ⟨h.nodup, List.nodup_singleton id, by grind⟩
    have hinsert : insert id recent.seen = (recent.order ++ [id]).toFinset := by
      rw [h.seen, List.toFinset_append, Finset.union_comm]
      rfl
    rw [accept, if_neg hnew] at hnodup ⊢
    dsimp only
    rw [hinsert, evict_eq hall, h.order, ← rtake_concat]
    exact holds_window hnodup

/-! ## Whole sequences -/

/-- Remembers some messages, one after the other: those that are accepted, and the state after
them. -/
def rememberAll (recent : RecentMessages) : List Hash32 → List Hash32 × RecentMessages
  | [] => ([], recent)
  | id :: ids =>
    let (fresh, recent) := recent.remember id
    let (accepted, recent) := recent.rememberAll ids
    (if fresh then id :: accepted else accepted, recent)

/-- What is accepted extends the history. -/
lemma Holds.rememberAll (h : recent.Holds history) (ids : List Hash32) :
    (recent.rememberAll ids).2.Holds (history ++ (recent.rememberAll ids).1) := by
  induction ids generalizing recent history with
  | nil => simpa [RecentMessages.rememberAll] using h
  | cons id ids ih =>
    have hstep := ih (h.remember id)
    rw [RecentMessages.rememberAll]
    dsimp only
    by_cases hseen : id ∈ history.rtake maxRecent
    · rw [h.refused_iff.mpr hseen]
      rwa [accept, if_pos hseen] at hstep
    · have hfresh : (recent.remember id).1 = true := by
        simpa using h.refused_iff.not.mpr hseen
      rw [hfresh]
      rw [accept, if_neg hseen, List.append_assoc, List.singleton_append] at hstep
      exact hstep

lemma holds_empty : ({} : RecentMessages).Holds [] where
  order := (List.rtake_nil _).symm
  seen := List.toFinset_nil.symm
  nodup := by rw [List.rtake_nil]; exact List.nodup_nil

/-- **An exact window.**  After any sequence of messages, one more message is refused exactly if it
is among the last ones that were accepted, up to the limit; the set and the queue hold the same
messages, and the queue has no repetition and stays within the limit. -/
theorem remember_window (ids : List Hash32) (id : Hash32) :
    let (accepted, recent) := ({} : RecentMessages).rememberAll ids
    ((recent.remember id).1 = false ↔ id ∈ accepted.rtake maxRecent) ∧
      recent.seen = recent.order.toFinset ∧ recent.order.Nodup ∧
      recent.order.length ≤ maxRecent := by
  have h := holds_empty.rememberAll ids
  rw [List.nil_append] at h
  refine ⟨h.refused_iff, h.seen, ?_, ?_⟩
  · rw [h.order]
    exact h.nodup
  · rw [h.order]
    exact length_rtake_le _ _

end ZenoChain.RecentMessages
