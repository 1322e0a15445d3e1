import Mathlib.Order.Defs.LinearOrder
import Mathlib.Algebra.Group.Int.Defs
import Mathlib.Algebra.Group.Nat.Defs

/-!
# The order of 64-bit words

`UInt64` carries `<`, `≤`, `max` and `compare`; this is the linear order they form. The
negation of a word cast to a signed one reverses it on each half of the range.
-/

namespace Lib.U64

instance instLinearOrder : LinearOrder UInt64 where
  le_refl := UInt64.le_refl
  le_trans _ _ _ := UInt64.le_trans
  le_antisymm _ _ := UInt64.le_antisymm
  le_total := UInt64.le_total
  lt_iff_le_not_ge a b := by
    rw [UInt64.lt_iff_toNat_lt, UInt64.le_iff_toNat_le, UInt64.le_iff_toNat_le]
    omega
  toDecidableLE := inferInstance
  toDecidableEq := inferInstance
  toDecidableLT := inferInstance
  compare_eq_compareOfLessAndEq _ _ := rfl

/-- `u64::MAX`. -/
def maxValue : UInt64 := 18446744073709551615

theorem toNat_add_one_lt {v : UInt64} (h : v ≠ maxValue) : v.toNat + 1 < 2 ^ 64 := by
  have hne : v.toNat ≠ 18446744073709551615 := fun hv => h (UInt64.toNat_inj.mp hv)
  have hlt := v.toNat_lt
  omega

theorem lt_add_one {v : UInt64} (h : v ≠ maxValue) : v < v + 1 := by
  have hlt := toNat_add_one_lt h
  rw [UInt64.lt_iff_toNat_lt, UInt64.toNat_add]
  show v.toNat < (v.toNat + 1) % 2 ^ 64
  omega

/-! ## Words read as signed integers -/

theorem toInt_toInt64 (v : UInt64) :
    v.toInt64.toInt = if v.toNat < 2 ^ 63 then (v.toNat : ℤ) else v.toNat - 2 ^ 64 := by
  show v.toBitVec.toInt = _
  rw [BitVec.toInt_eq_toNat_cond]
  show (if 2 * v.toNat < 2 ^ 64 then (v.toNat : ℤ) else (v.toNat : ℤ) - ((2 ^ 64 : ℕ) : ℤ)) = _
  split <;> split <;> omega

/-- The one word whose negation overflows. -/
theorem toInt64_eq_minValue_iff {v : UInt64} : v.toInt64 = Int64.minValue ↔ v.toNat = 2 ^ 63 := by
  have hlt := v.toNat_lt
  rw [← Int64.toInt_inj, toInt_toInt64, Int64.toInt_minValue]
  split <;> omega

theorem toInt_neg_toInt64 {v : UInt64} (h : v.toNat ≠ 2 ^ 63) :
    (-v.toInt64).toInt = if v.toNat < 2 ^ 63 then -(v.toNat : ℤ) else 2 ^ 64 - v.toNat := by
  have hlt := v.toNat_lt
  have hneg : (-v.toInt64).toInt = -v.toInt64.toInt := by
    rw [Int64.toInt_neg, toInt_toInt64]
    apply Int.bmod_eq_of_le
    all_goals
      split <;> omega
  rw [hneg, toInt_toInt64]
  split <;> omega

end Lib.U64
