/-
# The base fee

After each block the base fee moves by up to an eighth of itself, upwards by more if the gas used
is more than twice the target.  The product that is divided stays at the largest word, and so does
the sum; neither breaks the order of the fees or one of their bounds.
-/
import ZenoChain.Base.Word
import ZenoChain.Chain.Rocks

namespace ZenoChain

open Word

/-- A division of the source, which panics on zero. -/
def divide (a b : ℕ) : Except String ℕ :=
  if b = 0 then throw "attempt to divide by zero" else return a / b

namespace ExecutionEngine

/-- EIP-1559 base fee adjustment denominator. -/
def baseFeeChangeDenominator : ℕ := 8

/-- Minimum base fee. -/
def minBaseFee : ℕ := 1

/-- Updates EIP-1559 base fee based on gas usage. -/
def updateBaseFee (current : GasPricingState) (targetGas : ℕ) : Except String GasPricingState := do
  let base := if current.baseFee = 0 then minBaseFee else current.baseFee
  let newBase ←
    if current.lastBlockGasUsed > targetGas then do
      let excess := saturatingSub current.lastBlockGasUsed targetGas
      let delta := (← divide (saturatingMul 128 base excess) targetGas) / baseFeeChangeDenominator
      pure (saturatingAdd 128 base (max delta 1))
    else do
      let deficit := saturatingSub targetGas current.lastBlockGasUsed
      let delta := (← divide (saturatingMul 128 base deficit) targetGas) / baseFeeChangeDenominator
      pure (max (saturatingSub base delta) minBaseFee)
  return { baseFee := newBase, lastBlockGasUsed := 0 }

/-! ## The change of the fee -/

/-- The change for gas that misses the target by an amount. -/
def feeDelta (base miss target : ℕ) : ℕ := saturatingMul 128 base miss / target / 8

/-- The base fee after a block. -/
def nextBaseFee (base gas target : ℕ) : ℕ :=
  if target < gas then saturatingAdd 128 base (max (feeDelta base (gas - target) target) 1)
  else max (base - feeDelta base (target - gas) target) 1

variable {base gas gas' miss miss' target : ℕ} {current : GasPricingState}

/-- With a positive target the update does not panic. -/
lemma updateBaseFee_ok (current : GasPricingState) (htarget : 0 < target) :
    updateBaseFee current target = .ok
      { baseFee := nextBaseFee (max current.baseFee 1) current.lastBlockGasUsed target
        lastBlockGasUsed := 0 } := by
  have hbase : (if current.baseFee = 0 then minBaseFee else current.baseFee) =
      max current.baseFee 1 := by
    rw [minBaseFee]
    split <;> omega
  have hdivide : ∀ a : ℕ, divide a target = .ok (a / target) := fun a => if_neg htarget.ne'
  rw [updateBaseFee, hbase]
  dsimp only
  by_cases habove : current.lastBlockGasUsed > target
  · rw [if_pos habove, hdivide, nextBaseFee, if_pos habove]
    rfl
  · rw [if_neg habove, hdivide, nextBaseFee, if_neg habove]
    rfl

lemma feeDelta_mono (h : miss ≤ miss') : feeDelta base miss target ≤ feeDelta base miss' target := by
  refine Nat.div_le_div_right (Nat.div_le_div_right ?_)
  exact min_le_min_right _ (Nat.mul_le_mul_left _ h)

lemma feeDelta_le : feeDelta base miss target ≤ base * miss / (8 * target) := by
  rw [feeDelta, Nat.div_div_eq_div_mul, Nat.mul_comm target]
  exact Nat.div_le_div_right saturatingMul_le

/-- Up to twice the target, the fee changes by an eighth at most. -/
lemma feeDelta_le_eighth (h : miss ≤ target) :
    feeDelta base miss target ≤ base / 8 := by
  refine Nat.div_le_div_right (Nat.div_le_of_le_mul ?_)
  calc saturatingMul 128 base miss ≤ base * miss := saturatingMul_le
    _ ≤ base * target := Nat.mul_le_mul_left _ h
    _ = target * base := Nat.mul_comm _ _

/-- Below the target the fee falls, by an eighth at most. -/
lemma nextBaseFee_below (hbase : 1 ≤ base) (h : gas ≤ target) :
    base - base / 8 ≤ nextBaseFee base gas target ∧ nextBaseFee base gas target ≤ base := by
  have hdelta : feeDelta base (target - gas) target ≤ base / 8 :=
    feeDelta_le_eighth (Nat.sub_le target gas)
  rw [nextBaseFee, if_neg (not_lt.mpr h)]
  omega

/-- Above the target the fee rises, unless it is the largest word already. -/
lemma nextBaseFee_above (hfits : base ≤ maxValue 128) (h : target < gas) :
    base ≤ nextBaseFee base gas target ∧
      (base < nextBaseFee base gas target ∨ base = maxValue 128) ∧
      nextBaseFee base gas target ≤ base + max 1 (base * (gas - target) / (8 * target)) := by
  have hdelta : feeDelta base (gas - target) target ≤ base * (gas - target) / (8 * target) :=
    feeDelta_le
  rw [nextBaseFee, if_pos h, saturatingAdd]
  omega

lemma nextBaseFee_pos (hbase : 1 ≤ base) (hfits : base ≤ maxValue 128) :
    1 ≤ nextBaseFee base gas target := by
  by_cases h : target < gas
  · exact hbase.trans (nextBaseFee_above hfits h).1
  · rw [nextBaseFee, if_neg h]
    exact le_max_right _ _

lemma nextBaseFee_le_maxValue (hbase : 1 ≤ base)
    (hfits : base ≤ maxValue 128) : nextBaseFee base gas target ≤ maxValue 128 := by
  by_cases h : target < gas
  · rw [nextBaseFee, if_pos h]
    exact min_le_right _ _
  · exact (nextBaseFee_below hbase (not_lt.mp h)).2.trans hfits

/-- **More gas, no lower fee.**  Below the target and above it the change grows with the distance;
in between is the fee itself. -/
lemma nextBaseFee_mono (hbase : 1 ≤ base) (hfits : base ≤ maxValue 128)
    (h : gas ≤ gas') : nextBaseFee base gas target ≤ nextBaseFee base gas' target := by
  by_cases habove : target < gas
  · have hdelta : feeDelta base (gas - target) target ≤ feeDelta base (gas' - target) target :=
      feeDelta_mono (Nat.sub_le_sub_right h _)
    rw [nextBaseFee, nextBaseFee, if_pos habove, if_pos (habove.trans_le h), saturatingAdd,
      saturatingAdd]
    omega
  · by_cases habove' : target < gas'
    · exact (nextBaseFee_below hbase (not_lt.mp habove)).2.trans
        (nextBaseFee_above hfits habove').1
    · have hdelta : feeDelta base (target - gas') target ≤ feeDelta base (target - gas) target :=
        feeDelta_mono (Nat.sub_le_sub_left h _)
      rw [nextBaseFee, nextBaseFee, if_neg habove, if_neg habove']
      omega

/-- **The base fee stays in bounds.**  With a positive target the update panics nowhere, and the
new fee is a word that is at least one, within an eighth below the target, greater above it, and
no lower for more gas. -/
theorem updateBaseFee_bounds (current : GasPricingState) (target : ℕ)
    (hfits : current.baseFee < 2 ^ 128) (htarget : 0 < target) :
    ∃ next, updateBaseFee current target = .ok next ∧
      1 ≤ next.baseFee ∧ next.baseFee < 2 ^ 128 ∧
      (current.lastBlockGasUsed ≤ target →
        max current.baseFee 1 - max current.baseFee 1 / 8 ≤ next.baseFee ∧
          next.baseFee ≤ max current.baseFee 1) ∧
      (target < current.lastBlockGasUsed →
        (max current.baseFee 1 < next.baseFee ∨ max current.baseFee 1 = 2 ^ 128 - 1) ∧
          next.baseFee ≤ max current.baseFee 1 + max 1
            (max current.baseFee 1 * (current.lastBlockGasUsed - target) / (8 * target))) ∧
      ∀ gas ≥ current.lastBlockGasUsed, ∃ next',
        updateBaseFee { current with lastBlockGasUsed := gas } target = .ok next' ∧
          next.baseFee ≤ next'.baseFee := by
  have hbase : 1 ≤ max current.baseFee 1 := le_max_right _ _
  have hword : max current.baseFee 1 ≤ maxValue 128 :=
    max_le (le_maxValue_iff.mpr hfits) (le_maxValue_iff.mpr (by decide))
  refine ⟨_, updateBaseFee_ok current htarget, nextBaseFee_pos hbase hword,
    le_maxValue_iff.mp (nextBaseFee_le_maxValue hbase hword),
    nextBaseFee_below hbase, fun h => (nextBaseFee_above hword h).2, fun gas hgas => ?_⟩
  exact ⟨_, updateBaseFee_ok { current with lastBlockGasUsed := gas } htarget,
    nextBaseFee_mono hbase hword hgas⟩

example : updateBaseFee ⟨2 ^ 128 - 1, 30000000⟩ 15000000 = .ok ⟨2 ^ 128 - 1, 0⟩ := by rfl

theorem updateBaseFee_fullBlock :
    ∃ next, updateBaseFee ⟨1000, 30000000⟩ 15000000 = .ok next ∧
      1000 < next.baseFee ∧ next.baseFee ≤ 1125 := by
  obtain ⟨next, hok, -, -, -, habove, -⟩ :=
    updateBaseFee_bounds ⟨1000, 30000000⟩ 15000000 (by decide) (by decide)
  obtain ⟨hrise, hbound⟩ := habove (by decide)
  exact ⟨next, hok, hrise.resolve_right (by decide), hbound⟩

end ExecutionEngine

end ZenoChain
