/-
# Byte strings as numbers

The number whose digits to base 256 are the bytes of a string, least or most significant first.
-/
import Mathlib.Algebra.Order.Ring.Nat
import Mathlib.Tactic.Ring

namespace ZenoChain.Digits

/-- The number with the given bytes, least significant first. -/
def ofLe : List UInt8 → ℕ
  | [] => 0
  | b :: l => b.toNat + 256 * ofLe l

/-- The number with the given bytes, most significant first. -/
def ofBe (l : List UInt8) : ℕ := ofLe l.reverse

@[simp] lemma ofLe_nil : ofLe [] = 0 := rfl

@[simp] lemma ofBe_nil : ofBe [] = 0 := rfl

lemma ofLe_cons (b : UInt8) (l : List UInt8) : ofLe (b :: l) = b.toNat + 256 * ofLe l := rfl

lemma ofLe_append (l m : List UInt8) : ofLe (l ++ m) = ofLe l + 256 ^ l.length * ofLe m := by
  induction l with
  | nil => simp
  | cons b l ih => rw [List.cons_append, ofLe_cons, ih, ofLe_cons, List.length_cons]; ring

lemma ofBe_cons (b : UInt8) (l : List UInt8) :
    ofBe (b :: l) = b.toNat * 256 ^ l.length + ofBe l := by
  rw [ofBe, List.reverse_cons, ofLe_append, List.length_reverse, ofBe, ofLe_cons, ofLe_nil]
  ring

lemma ofBe_append (l m : List UInt8) : ofBe (l ++ m) = ofBe l * 256 ^ m.length + ofBe m := by
  rw [ofBe, List.reverse_append, ofLe_append, List.length_reverse, ofBe, ofBe]
  ring

/-- Zeros in front do not count. -/
lemma ofBe_replicate_zero_append (k : ℕ) (l : List UInt8) :
    ofBe (List.replicate k 0 ++ l) = ofBe l := by
  induction k with
  | zero => rfl
  | succ k ih =>
    rw [List.replicate_succ, List.cons_append, ofBe_cons, ih, UInt8.toNat_zero, Nat.zero_mul,
      Nat.zero_add]

lemma ofLe_lt (l : List UInt8) : ofLe l < 256 ^ l.length := by
  induction l with
  | nil => simp
  | cons b l ih =>
    have hb := b.toNat_lt
    rw [ofLe_cons, List.length_cons, Nat.pow_succ]
    omega

lemma ofBe_lt (l : List UInt8) : ofBe l < 256 ^ l.length := by
  have h := ofLe_lt l.reverse
  rwa [List.length_reverse] at h

/-- Strings of the same length with the same number are the same. -/
lemma ofLe_inj {l m : List UInt8} (hlength : l.length = m.length) (h : ofLe l = ofLe m) : l = m := by
  induction l generalizing m with
  | nil => exact (List.eq_nil_of_length_eq_zero hlength.symm).symm
  | cons b l ih =>
    cases m with
    | nil => cases hlength
    | cons c m =>
      rw [ofLe_cons, ofLe_cons] at h
      have hb := b.toNat_lt
      have hc := c.toNat_lt
      have hhead : b = c := UInt8.toNat_inj.mp (by omega)
      rw [hhead, ih (Nat.succ.inj hlength) (by omega)]

lemma ofBe_inj {l m : List UInt8} (hlength : l.length = m.length) (h : ofBe l = ofBe m) : l = m := by
  refine List.reverse_inj.mp (ofLe_inj ?_ h)
  rw [List.length_reverse, List.length_reverse, hlength]

end ZenoChain.Digits
