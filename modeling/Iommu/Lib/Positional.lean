import Mathlib.Algebra.BigOperators.Fin

/-! Numbers by parts of their expansion in a base.

A part is some consecutive digits, right-aligned. It depends on no digit above it
(`part_congr_of_mod`) or below it (`part_congr_of_div`). Parts that meet are one part
(`part_append`), so a number is read whole from groups of digits with no place between
them (`part_eq_sum`), and any groups at all are those of some number (`exists_parts`). -/
namespace Iommu.Lib.Positional
variable {b : Nat}

/-- The `n` digits of a number from place `lo` up. -/
def part (b x lo n : Nat) : Nat := x / b ^ lo % b ^ n

theorem part_zero (x n : Nat) : part b x 0 n = x % b ^ n := by
  rw [part, Nat.pow_zero, Nat.div_one]

theorem part_none (x lo : Nat) : part b x lo 0 = 0 := by
  rw [part, Nat.pow_zero, Nat.mod_one]

/-- The digits above a place, of a number that has none further up. -/
theorem part_top {x lo n : Nat} (h : x < b ^ (lo + n)) : part b x lo n = x / b ^ lo := by
  rw [Nat.pow_add] at h
  exact Nat.mod_eq_of_lt (Nat.div_lt_of_lt_mul h)

/-- Numbers that agree from a place up agree from any place above it. -/
theorem div_congr {x y k n : Nat} (h : x / b ^ k = y / b ^ k) (hn : k ≤ n) : x / b ^ n = y / b ^ n := by
  obtain ⟨d, rfl⟩ := Nat.exists_eq_add_of_le hn
  rw [Nat.pow_add, ← Nat.div_div_eq_div_mul, ← Nat.div_div_eq_div_mul, h]

theorem part_congr_of_div {x y k lo : Nat} (h : x / b ^ k = y / b ^ k) (hlo : k ≤ lo) (n : Nat) :
    part b x lo n = part b y lo n := by
  rw [part, part, div_congr h hlo]

/-- Numbers that agree below a place have the same parts there. -/
theorem part_congr_of_mod {x y k lo n : Nat} (h : x % b ^ k = y % b ^ k) (hk : lo + n ≤ k) :
    part b x lo n = part b y lo n := by
  have hdvd : b ^ lo * b ^ n ∣ b ^ k := by
    rw [← Nat.pow_add]
    exact Nat.pow_dvd_pow b hk
  rw [part, part, ← Nat.mod_mul_right_div_self, ← Nat.mod_mul_right_div_self, ← Nat.mod_mod_of_dvd x hdvd, h,
    Nat.mod_mod_of_dvd y hdvd]

/-- The digits of a number that is moved up. -/
theorem part_mul_pow (hb : 0 < b) (x k lo n : Nat) : part b (x * b ^ k) (k + lo) n = part b x lo n := by
  rw [part, part, Nat.pow_add, ← Nat.div_div_eq_div_mul, Nat.mul_div_cancel _ (Nat.pow_pos hb)]

/-- **A part in two**, at any place within it. -/
theorem part_append (x lo m n : Nat) :
    part b x lo (m + n) = part b x (lo + m) n * b ^ m + part b x lo m := calc
  part b x lo (m + n) = x / b ^ lo % (b ^ m * b ^ n) := by rw [part, Nat.pow_add]
  _ = x / b ^ lo % b ^ m + b ^ m * (x / b ^ lo / b ^ m % b ^ n) := Nat.mod_mul
  _ = part b x (lo + m) n * b ^ m + part b x lo m := by
    rw [Nat.div_div_eq_div_mul, ← Nat.pow_add, Nat.add_comm, Nat.mul_comm, part, part]

/-- A part in groups of `n` digits. -/
theorem part_eq_sum (x lo n k : Nat) :
    part b x lo (n * k) = ∑ i ∈ Finset.range k, part b x (lo + n * i) n * b ^ (n * i) := by
  induction k with
  | zero => exact part_none x lo
  | succ k ih => rw [Nat.mul_succ, part_append, ih, Finset.sum_range_succ, Nat.add_comm]

/-- Groups that are equal make parts that are. -/
theorem part_congr {x y lo n k : Nat} (h : ∀ i, i < k → part b x (lo + n * i) n = part b y (lo + n * i) n) :
    part b x lo (n * k) = part b y lo (n * k) := by
  rw [part_eq_sum, part_eq_sum]
  refine Finset.sum_congr rfl fun i hi => ?_
  rw [h i (Finset.mem_range.mp hi)]

/-- A group of `n` digits is one digit in base `b ^ n`. -/
theorem part_group (x lo n i : Nat) : part b x (lo + n * i) n = x / b ^ lo / (b ^ n) ^ i % b ^ n := by
  rw [part, Nat.pow_add, ← Nat.div_div_eq_div_mul, Nat.pow_mul]

/-- Every choice of groups is that of a number with no other digit. -/
theorem exists_parts (n k : Nat) (group : Nat → Nat) (h : ∀ i, i < k → group i < b ^ n) :
    ∃ x, x < b ^ (n * k) ∧ ∀ i, i < k → part b x (n * i) n = group i := by
  let digits : Fin k → Fin (b ^ n) := fun i => ⟨group i, h i i.isLt⟩
  refine ⟨finFunctionFinEquiv digits, ?_, fun i hi => ?_⟩
  · rw [Nat.pow_mul]
    exact (finFunctionFinEquiv digits).isLt
  · have hback : finFunctionFinEquiv.symm (finFunctionFinEquiv digits) ⟨i, hi⟩ = digits ⟨i, hi⟩ :=
      congrFun (finFunctionFinEquiv.symm_apply_apply digits) ⟨i, hi⟩
    have hdigit := part_group (b := b) (finFunctionFinEquiv digits) 0 n i
    rw [Nat.zero_add, Nat.pow_zero, Nat.div_one] at hdigit
    exact hdigit.trans (congrArg Fin.val hback)

end Iommu.Lib.Positional
