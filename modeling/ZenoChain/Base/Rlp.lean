/-
# Recursive length prefixes

A byte string or a list stands behind a header, whose first byte says which of the two follows and
either its length or the length of its length.  Numbers are byte strings without leading zeros.
-/
import Mathlib.Data.FinEnum
import Mathlib.Data.Nat.Digits.Lemmas
import ZenoChain.Base.Digits

namespace ZenoChain

namespace Digits

/-- The bytes of a number, most significant first, without leading zeros. -/
def toBe (n : ℕ) : List UInt8 := ((Nat.digits 256 n).map UInt8.ofNat).reverse

@[simp] lemma toBe_zero : toBe 0 = [] := by simp [toBe]

lemma ofBe_toBe (n : ℕ) : ofBe (toBe n) = n := by
  have hofLe : ∀ l : List ℕ, (∀ d ∈ l, d < 256) → ofLe (l.map UInt8.ofNat) = Nat.ofDigits 256 l := by
    intro l
    induction l with
    | nil => exact fun _ => rfl
    | cons d l ih =>
      intro hl
      obtain ⟨hd, hrest⟩ := List.forall_mem_cons.mp hl
      rw [List.map_cons, ofLe_cons, ih hrest, Nat.ofDigits_cons, UInt8.toNat_ofNat_of_lt' hd]
  rw [ofBe, toBe, List.reverse_reverse, hofLe _ fun d hd => Nat.digits_lt_base (by decide) hd,
    Nat.ofDigits_digits]

lemma length_toBe_le_iff {n k : ℕ} : (toBe n).length ≤ k ↔ n < 256 ^ k := by
  rw [toBe, List.length_reverse, List.length_map]
  exact Nat.digits_length_le_iff (by decide) n

lemma length_toBe_mono {n m : ℕ} (h : n ≤ m) : (toBe n).length ≤ (toBe m).length :=
  length_toBe_le_iff.mpr (h.trans_lt (length_toBe_le_iff.mp le_rfl))

lemma toBe_inj {n m : ℕ} (h : toBe n = toBe m) : n = m := by
  rw [← ofBe_toBe n, h, ofBe_toBe]

/-- A string without leading zeros is the one of its number. -/
lemma toBe_ofBe {l : List UInt8} (h : l.head? ≠ some 0) : toBe (ofBe l) = l := by
  refine ofBe_inj (le_antisymm (length_toBe_le_iff.mpr (ofBe_lt l)) ?_) (ofBe_toBe _)
  cases l with
  | nil => exact Nat.zero_le _
  | cons b l =>
    have hb : 1 ≤ b.toNat := by
      refine Nat.one_le_iff_ne_zero.mpr fun hzero => h ?_
      have hb : b = 0 := UInt8.toNat_inj.mp hzero
      rw [hb, List.head?_cons]
    have hle : 256 ^ l.length ≤ ofBe (b :: l) := by
      rw [ofBe_cons]
      exact (Nat.le_mul_of_pos_left _ hb).trans (Nat.le_add_right _ _)
    by_contra hlt
    rw [List.length_cons, not_le, Nat.lt_succ_iff, length_toBe_le_iff] at hlt
    omega

end Digits

namespace Rlp

open Digits

/-- The header of a string or a list of the given length; the base of its first byte is that of
strings or that of lists. -/
def header (isList : Bool) (len : ℕ) : List UInt8 :=
  let base := if isList then 0xc0 else 0x80
  if len ≤ 55 then [UInt8.ofNat (base + len)]
  else UInt8.ofNat (base + 55 + (toBe len).length) :: toBe len

/-- A byte string; a single byte below `0x80` stands for itself. -/
def string (b : List UInt8) : List UInt8 :=
  if b.length = 1 ∧ ∀ x ∈ b, x.toNat < 0x80 then b else header false b.length ++ b

/-- A list of encoded items. -/
def list (items : List (List UInt8)) : List UInt8 := header true items.flatten.length ++ items.flatten

/-- What the first bytes declare: a string or a list, the length of the header, and the length of
what follows. -/
structure Head where
  isList : Bool
  start : ℕ
  len : ℕ
deriving DecidableEq, Repr

namespace Head

/-- The length with the header. -/
def total (h : Head) : ℕ := h.start + h.len

/-- What follows the header. -/
def payload (h : Head) (data : List UInt8) : List UInt8 := (data.drop h.start).take h.len

end Head

/-- What a header with a length of `k` bytes declares. -/
def longHead (isList : Bool) (k : ℕ) (rest : List UInt8) : Option Head :=
  if k ≤ rest.length then some ⟨isList, 1 + k, ofBe (rest.take k)⟩ else none

/-- What the first bytes of a string declare, if the header is complete. -/
def head : List UInt8 → Option Head
  | [] => none
  | first :: rest =>
    if first.toNat < 0x80 then some ⟨false, 0, 1⟩
    else if first.toNat < 0xb8 then some ⟨false, 1, first.toNat - 0x80⟩
    else if first.toNat < 0xc0 then longHead false (first.toNat - 0xb7) rest
    else if first.toNat < 0xf8 then some ⟨true, 1, first.toNat - 0xc0⟩
    else longHead true (first.toNat - 0xf7) rest

variable {data : List UInt8} {h : Head} {b : List UInt8} {len : ℕ}

/-- Headers have at most nine bytes, lengths are words, and something is taken up. -/
lemma head_bounds (hh : head data = some h) :
    h.start ≤ 9 ∧ h.len < 2 ^ 64 ∧ 0 < h.total ∧ h.start ≤ data.length := by
  have hlong : ∀ (isList : Bool) (k : ℕ) (rest : List UInt8), 0 < k → k ≤ 8 →
      longHead isList k rest = some h →
        h.start ≤ 9 ∧ h.len < 2 ^ 64 ∧ 0 < h.total ∧ h.start ≤ rest.length + 1 := by
    intro isList k rest hpos hk hsome
    rw [longHead] at hsome
    split at hsome
    · rename_i hle
      cases hsome
      have hlt := ofBe_lt (rest.take k)
      rw [List.length_take, Nat.min_eq_left hle] at hlt
      have hpow : 256 ^ k ≤ 256 ^ 8 := Nat.pow_le_pow_right (by decide) hk
      refine ⟨?_, ?_, ?_, ?_⟩
      · show 1 + k ≤ 9
        omega
      · show ofBe (rest.take k) < 2 ^ 64
        exact hlt.trans_le hpow
      · show 0 < 1 + k + _
        omega
      · show 1 + k ≤ rest.length + 1
        omega
    · cases hsome
  cases data with
  | nil => cases hh
  | cons first rest =>
    have hfirst := first.toNat_lt
    rw [head] at hh
    split at hh
    · cases hh
      exact ⟨by decide, by decide, by decide, Nat.zero_le _⟩
    · split at hh
      · cases hh
        refine ⟨Nat.le_of_ble_eq_true rfl, ?_, Nat.lt_add_right _ Nat.one_pos, Nat.succ_le_succ (Nat.zero_le _)⟩
        show first.toNat - 0x80 < 2 ^ 64
        omega
      · split at hh
        · exact hlong _ _ _ (by omega) (by omega) hh
        · split at hh
          · cases hh
            refine ⟨Nat.le_of_ble_eq_true rfl, ?_, Nat.lt_add_right _ Nat.one_pos, Nat.succ_le_succ (Nat.zero_le _)⟩
            show first.toNat - 0xc0 < 2 ^ 64
            omega
          · exact hlong _ _ _ (by omega) (by omega) hh

/-- What follows a complete header does not matter. -/
lemma head_append (hh : head data = some h) (rest : List UInt8) : head (data ++ rest) = some h := by
  have hlong : ∀ (isList : Bool) (k : ℕ) (l : List UInt8), longHead isList k l = some h →
      longHead isList k (l ++ rest) = some h := by
    intro isList k l hsome
    rw [longHead] at hsome ⊢
    split at hsome
    · rename_i hle
      rw [if_pos (by rw [List.length_append]; omega), List.take_append_of_le_length hle]
      exact hsome
    · cases hsome
  cases data with
  | nil => cases hh
  | cons first l =>
    rw [List.cons_append, head]
    rw [head] at hh
    split
    · rwa [if_pos ‹_›] at hh
    · rw [if_neg ‹_›] at hh
      split
      · rwa [if_pos ‹_›] at hh
      · rw [if_neg ‹_›] at hh
        split
        · rw [if_pos ‹_›] at hh
          exact hlong _ _ _ hh
        · rw [if_neg ‹_›] at hh
          split
          · rwa [if_pos ‹_›] at hh
          · rw [if_neg ‹_›] at hh
            exact hlong _ _ _ hh

lemma Head.payload_append (hle : h.total ≤ data.length) (rest : List UInt8) :
    h.payload (data ++ rest) = h.payload data := by
  rw [Head.total] at hle
  rw [Head.payload, Head.payload, List.drop_append_of_le_length (by omega),
    List.take_append_of_le_length (by rw [List.length_drop]; omega)]

/-- A header is read back. -/
lemma head_header (isList : Bool) (hlen : len < 2 ^ 64) (rest : List UInt8) :
    head (header isList len ++ rest) = some ⟨isList, (header isList len).length, len⟩ := by
  rw [header]
  by_cases hshort : len ≤ 55
  · rw [if_pos hshort]
    cases isList with
    | false =>
      have hfirst : (UInt8.ofNat (0x80 + len)).toNat = 0x80 + len :=
        UInt8.toNat_ofNat_of_lt' (by show _ < 256; omega)
      simp only [Bool.false_eq_true, if_false, List.singleton_append, head, hfirst,
        List.length_singleton]
      rw [if_neg (by omega), if_pos (by omega), Nat.add_sub_cancel_left]
    | true =>
      have hfirst : (UInt8.ofNat (0xc0 + len)).toNat = 0xc0 + len :=
        UInt8.toNat_ofNat_of_lt' (by show _ < 256; omega)
      simp only [if_true, List.singleton_append, head, hfirst, List.length_singleton]
      rw [if_neg (by omega), if_neg (by omega), if_neg (by omega), if_pos (by omega),
        Nat.add_sub_cancel_left]
  · rw [if_neg hshort]
    have hle : (toBe len).length ≤ 8 := length_toBe_le_iff.mpr hlen
    have hpos : 0 < (toBe len).length := by
      by_contra hzero
      have := length_toBe_le_iff.mp (Nat.le_of_not_lt hzero)
      omega
    have hlong : longHead isList (toBe len).length (toBe len ++ rest) =
        some ⟨isList, (toBe len).length + 1, len⟩ := by
      rw [longHead, if_pos (by rw [List.length_append]; omega), List.take_left, ofBe_toBe,
        Nat.add_comm]
    cases isList with
    | false =>
      have hfirst : (UInt8.ofNat (0x80 + 55 + (toBe len).length)).toNat =
          0x80 + 55 + (toBe len).length := UInt8.toNat_ofNat_of_lt' (by show _ < 256; omega)
      simp only [Bool.false_eq_true, if_false, List.cons_append, head, hfirst, List.length_cons]
      rw [if_neg (by omega), if_neg (by omega), if_pos (by omega),
        show 0x80 + 55 + (toBe len).length - 0xb7 = (toBe len).length by omega]
      exact hlong
    | true =>
      have hfirst : (UInt8.ofNat (0xc0 + 55 + (toBe len).length)).toNat =
          0xc0 + 55 + (toBe len).length := UInt8.toNat_ofNat_of_lt' (by show _ < 256; omega)
      simp only [if_true, List.cons_append, head, hfirst, List.length_cons]
      rw [if_neg (by omega), if_neg (by omega), if_neg (by omega), if_neg (by omega),
        show 0xc0 + 55 + (toBe len).length - 0xf7 = (toBe len).length by omega]
      exact hlong

/-- A string is read back, whatever follows. -/
lemma head_string (hlen : b.length < 2 ^ 64) (rest : List UInt8) :
    ∃ h, head (string b ++ rest) = some h ∧ h.isList = false ∧ h.total = (string b).length ∧
      h.payload (string b ++ rest) = b := by
  rw [string]
  split
  · rename_i hsingle
    obtain ⟨hone, hsmall⟩ := hsingle
    obtain ⟨x, rfl⟩ := List.length_eq_one_iff.mp hone
    refine ⟨⟨false, 0, 1⟩, ?_, rfl, rfl, rfl⟩
    rw [List.singleton_append, head, if_pos (hsmall x List.mem_cons_self)]
  · refine ⟨_, by rw [List.append_assoc]; exact head_header false hlen _, rfl, ?_, ?_⟩
    · rw [Head.total, List.length_append]
    · rw [Head.payload, List.append_assoc, List.drop_left, List.take_left]

/-- A list is read back, whatever follows. -/
lemma head_list {items : List (List UInt8)} (hlen : items.flatten.length < 2 ^ 64)
    (rest : List UInt8) :
    ∃ h, head (list items ++ rest) = some h ∧ h.isList = true ∧ h.total = (list items).length ∧
      h.payload (list items ++ rest) = items.flatten := by
  rw [list]
  refine ⟨_, by rw [List.append_assoc]; exact head_header true hlen _, rfl, ?_, ?_⟩
  · rw [Head.total, List.length_append]
  · rw [Head.payload, List.append_assoc, List.drop_left, List.take_left]

lemma length_header (isList : Bool) (len : ℕ) :
    (header isList len).length = if len ≤ 55 then 1 else (toBe len).length + 1 := by
  rw [header, apply_ite List.length, List.length_singleton, List.length_cons]

lemma length_header_mono (isList : Bool) {n m : ℕ} (h : n ≤ m) :
    (header isList n).length ≤ (header isList m).length := by
  have hmono := length_toBe_mono h
  rw [length_header, length_header]
  split <;> split <;> omega

lemma length_header_pos (isList : Bool) (len : ℕ) : 0 < (header isList len).length := by
  rw [length_header]
  split <;> omega

lemma length_le_string (b : List UInt8) : b.length ≤ (string b).length := by
  rw [string]
  split
  · rfl
  · rw [List.length_append]
    omega

/-- The first byte of a list is that of a list. -/
lemma list_eq_cons {items : List (List UInt8)} (hlen : items.flatten.length < 2 ^ 64) :
    ∃ first rest, list items = first :: rest ∧ 0xc0 ≤ first.toNat := by
  rw [list, header]
  by_cases hshort : items.flatten.length ≤ 55
  · refine ⟨UInt8.ofNat (0xc0 + items.flatten.length), items.flatten, by rw [if_pos hshort]; rfl, ?_⟩
    rw [UInt8.toNat_ofNat_of_lt' (by show _ < 256; omega)]
    omega
  · have hle : (toBe items.flatten.length).length ≤ 8 := length_toBe_le_iff.mpr hlen
    refine ⟨UInt8.ofNat (0xc0 + 55 + (toBe items.flatten.length).length), _,
      by rw [if_neg hshort]; rfl, ?_⟩
    rw [UInt8.toNat_ofNat_of_lt' (by show _ < 256; omega)]
    omega

/-- A list that is encoded once more, as a string, gets longer. -/
lemma length_lt_string_list {items : List (List UInt8)} (hlen : items.flatten.length < 2 ^ 64) :
    (list items).length < (string (list items)).length := by
  obtain ⟨first, rest, hcons, hfirst⟩ := list_eq_cons hlen
  have hnot : ¬ ((list items).length = 1 ∧ ∀ x ∈ list items, x.toNat < 0x80) := by
    rintro ⟨-, hsmall⟩
    have := hsmall first (hcons ▸ List.mem_cons_self)
    omega
  rw [string, if_neg hnot, List.length_append]
  have := length_header_pos false (list items).length
  omega

lemma length_list_lt {items items' : List (List UInt8)}
    (h : items.flatten.length < items'.flatten.length) : (list items).length < (list items').length := by
  have hmono := length_header_mono true h.le
  rw [list, list, List.length_append, List.length_append]
  omega

lemma flatten_le_list (items : List (List UInt8)) : items.flatten.length ≤ (list items).length := by
  rw [list, List.length_append]
  omega

lemma string_inj {b b' : List UInt8} (hb : b.length < 2 ^ 64) (hb' : b'.length < 2 ^ 64)
    (h : string b = string b') : b = b' := by
  obtain ⟨head₁, hh₁, -, -, hpayload₁⟩ := head_string hb []
  obtain ⟨head₂, hh₂, -, -, hpayload₂⟩ := head_string hb' []
  rw [h] at hh₁ hpayload₁
  obtain rfl := Option.some.inj (hh₁.symm.trans hh₂)
  exact hpayload₁.symm.trans hpayload₂

/-- Lists of different payloads are different. -/
lemma flatten_eq_of_list_eq {items items' : List (List UInt8)} (h : list items = list items') :
    items.flatten = items'.flatten := by
  have hlength := congrArg List.length h
  rcases Nat.lt_trichotomy items.flatten.length items'.flatten.length with hlt | heq | hlt
  · have := length_list_lt hlt
    omega
  · rw [list, list, heq] at h
    exact List.append_cancel_left h
  · have := length_list_lt hlt
    omega

/-! ## Items -/

/-- An item of a list: a string or a list, and what follows its header. -/
structure Item where
  isList : Bool
  payload : List UInt8
deriving DecidableEq, Repr

/-- The number that an item encodes, if it is a string. -/
def Item.number (item : Item) : Option ℕ := if item.isList then none else some (ofBe item.payload)

/-- A byte string consists of the given items. -/
inductive Splits : List UInt8 → List Item → Prop
  | nil : Splits [] []
  | cons {data : List UInt8} {h : Head} {items : List Item} : head data = some h →
      h.total ≤ data.length → Splits (data.drop h.total) items →
      Splits data (⟨h.isList, h.payload data⟩ :: items)

/-- A byte string begins with a list of the given items. -/
def Lists (data : List UInt8) (items : List Item) : Prop :=
  ∃ h, head data = some h ∧ h.isList = true ∧ h.total ≤ data.length ∧
    Splits (h.payload data) items

lemma Splits.unique {items items' : List Item} (h : Splits data items) (h' : Splits data items') :
    items = items' := by
  induction h generalizing items' with
  | nil =>
    cases h' with
    | nil => rfl
    | cons hhead => cases hhead
  | cons hhead _ _ ih =>
    cases h' with
    | nil => cases hhead
    | cons hhead' _ hrest' =>
      obtain rfl := Option.some.inj (hhead.symm.trans hhead')
      rw [ih hrest']

lemma Lists.unique {items items' : List Item} (h : Lists data items) (h' : Lists data items') :
    items = items' := by
  obtain ⟨_, hhead, -, -, hsplits⟩ := h
  obtain ⟨_, hhead', -, -, hsplits'⟩ := h'
  obtain rfl := Option.some.inj (hhead.symm.trans hhead')
  exact hsplits.unique hsplits'

/-- Encoded strings consist of these strings. -/
lemma splits_strings {l : List (List UInt8)} (h : ∀ b ∈ l, b.length < 2 ^ 64) :
    Splits (l.map string).flatten (l.map (Item.mk false)) := by
  induction l with
  | nil => exact .nil
  | cons b l ih =>
    obtain ⟨hb, hl⟩ := List.forall_mem_cons.mp h
    obtain ⟨h, hh, hstring, htotal, hpayload⟩ := head_string hb (l.map string).flatten
    have hrest : Splits ((string b ++ (l.map string).flatten).drop h.total) (l.map (Item.mk false)) := by
      rw [htotal, List.drop_left]
      exact ih hl
    have hsplits := Splits.cons hh (by rw [htotal, List.length_append]; omega) hrest
    rwa [hstring, hpayload] at hsplits

lemma lists_strings {l : List (List UInt8)} (h : ∀ b ∈ l, b.length < 2 ^ 64)
    (hlen : (l.map string).flatten.length < 2 ^ 64) (rest : List UInt8) :
    Lists (list (l.map string) ++ rest) (l.map (Item.mk false)) := by
  obtain ⟨head, hh, hlist, htotal, hpayload⟩ := head_list hlen rest
  refine ⟨head, hh, hlist, by rw [htotal, List.length_append]; omega, ?_⟩
  rw [hpayload]
  exact splits_strings h

end Rlp

end ZenoChain
