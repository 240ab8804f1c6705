import Mathlib.Data.BitVec
import Mathlib.Logic.Function.Basic

/-! Bit fields of a machine word.

A packed word is an OR of *placed* fields, a decoder reads *slices* of it, and a
setter *puts* one field and keeps the rest. The laws below are all that a proof
about such a layout needs: a slice of a placed field is the field or nothing, a
slice of a put word is the new field or the old slice, and a word masked to a
field is that field's slice placed back. -/
namespace Iommu.Lib.Word

variable {w n m : Nat}

/-- `v` at bits `lo` and up of a word. -/
def place (w lo : Nat) (v : BitVec n) : BitVec w := v.setWidth w <<< lo

/-- Ones at the `n` bits from `lo`. -/
def mask (w lo n : Nat) : BitVec w := place w lo (BitVec.allOnes n)

/-- `x` with the `n` bits from `lo` replaced by `v`. -/
def put (lo : Nat) (v : BitVec n) (x : BitVec w) : BitVec w := (x &&& ~~~mask w lo n) ||| place w lo v

theorem place_zero (v : BitVec n) : place w 0 v = v.setWidth w := BitVec.shiftLeft_zero _

theorem getLsbD_place (lo i : Nat) (v : BitVec n) :
    (place w lo v).getLsbD i = (decide (i < w) && decide (lo ≤ i) && v.getLsbD (i - lo)) := by
  simp only [place, BitVec.getLsbD_shiftLeft, BitVec.getLsbD_setWidth]
  by_cases hi : i < w
  · by_cases hlo : lo ≤ i
    · have : i - lo < w := by omega
      simp [hi, hlo, this]
    · have : i < lo := by omega
      simp [hi, hlo, this]
  · simp [hi]

theorem getLsbD_mask (lo i : Nat) :
    (mask w lo n).getLsbD i = (decide (i < w) && decide (lo ≤ i) && decide (i < lo + n)) := by
  rw [mask, getLsbD_place, BitVec.getLsbD_allOnes]
  by_cases hlo : lo ≤ i
  · have : i - lo < n ↔ i < lo + n := by omega
    simp [hlo, this]
  · simp [hlo]

theorem getLsbD_put (lo i : Nat) (v : BitVec n) (x : BitVec w) (hi : i < w) :
    (put lo v x).getLsbD i = if lo ≤ i ∧ i < lo + n then v.getLsbD (i - lo) else x.getLsbD i := by
  simp only [put, BitVec.getLsbD_or, BitVec.getLsbD_and, BitVec.getLsbD_not, getLsbD_mask,
    getLsbD_place, hi, decide_true, Bool.true_and]
  by_cases hlo : lo ≤ i
  · by_cases hn : i < lo + n
    · simp [hlo, hn]
    · have : v.getLsbD (i - lo) = false := BitVec.getLsbD_of_ge v (i - lo) (by omega)
      simp [hlo, hn, this]
  · simp [hlo]

/-! ### Values of fields -/

theorem toNat_place (lo : Nat) (v : BitVec n) (h : lo + n ≤ w) :
    (place w lo v).toNat = v.toNat * 2 ^ lo := by
  have hv : v.toNat * 2 ^ lo < 2 ^ w := calc
    v.toNat * 2 ^ lo < 2 ^ n * 2 ^ lo := Nat.mul_lt_mul_of_pos_right v.isLt (Nat.two_pow_pos lo)
    _ = 2 ^ (lo + n) := by rw [← Nat.pow_add, Nat.add_comm]
    _ ≤ 2 ^ w := Nat.pow_le_pow_right (by decide) h
  have hn : v.toNat < 2 ^ w := Nat.lt_of_le_of_lt (Nat.le_mul_of_pos_right _ (Nat.two_pow_pos lo)) hv
  rw [place, BitVec.toNat_shiftLeft, BitVec.toNat_setWidth, Nat.mod_eq_of_lt hn, Nat.shiftLeft_eq,
    Nat.mod_eq_of_lt hv]

theorem toNat_mask_zero (h : n ≤ w) : (mask w 0 n).toNat = 2 ^ n - 1 := by
  rw [mask, toNat_place 0 _ (by omega), BitVec.toNat_allOnes, Nat.pow_zero, Nat.mul_one]

theorem toNat_one_shift (h : n < w) : (1#w <<< n).toNat = 2 ^ n := by
  rw [← BitVec.twoPow_eq, BitVec.toNat_twoPow_of_lt h]

theorem one_le_one_shift (h : n < w) : 1#w ≤ 1#w <<< n := by
  have hone : 1 < 2 ^ w := Nat.one_lt_two_pow (by omega)
  rw [BitVec.le_def, toNat_one_shift h, BitVec.toNat_ofNat, Nat.mod_eq_of_lt hone]
  exact Nat.one_le_two_pow

/-- The usual way to write a mask of low ones. -/
theorem one_shift_sub_one (h : n < w) : (1#w <<< n) - 1#w = mask w 0 n := by
  have hone : 1 < 2 ^ w := Nat.one_lt_two_pow (by omega)
  apply BitVec.eq_of_toNat_eq
  rw [BitVec.toNat_sub_of_le (one_le_one_shift h), toNat_one_shift h, toNat_mask_zero (Nat.le_of_lt h),
    BitVec.toNat_ofNat, Nat.mod_eq_of_lt hone]

/-! ### Single bits -/

theorem bit_ne_zero {i : Nat} (hi : i < w) : BitVec.twoPow w i ≠ 0#w := by
  intro h0
  have := congrArg (fun y : BitVec w => y.getLsbD i) h0
  simp [hi] at this

theorem and_bit_eq_zero (x : BitVec w) (i : Nat) : x &&& (1#w <<< i) = 0#w ↔ x.getLsbD i = false := by
  rw [← BitVec.twoPow_eq, BitVec.and_twoPow]
  cases hx : x.getLsbD i
  · simp
  · simp [bit_ne_zero (BitVec.lt_of_getLsbD hx)]

/-- A test of one bit. -/
theorem flag_eq (x : BitVec w) (i : Nat) : (x &&& (1#w <<< i) != 0#w) = x.getLsbD i := by
  cases hx : x.getLsbD i
  · rw [(and_bit_eq_zero x i).mpr hx]
    exact bne_self_eq_false _
  · have hne : ¬x &&& (1#w <<< i) = 0#w := fun h => by
      rw [and_bit_eq_zero, hx] at h
      exact absurd h (by decide)
    exact bne_iff_ne.mpr hne

/-- A test that all of one bit is there. -/
theorem has_bit (x : BitVec w) {i : Nat} (hi : i < w) : (x &&& (1#w <<< i) == 1#w <<< i) = x.getLsbD i := by
  rw [← BitVec.twoPow_eq, BitVec.and_twoPow]
  cases x.getLsbD i
  · simp [(bit_ne_zero hi).symm]
  · simp

/-- The same test, of the slice that the bit is. -/
theorem flag_slice (x : BitVec w) (i : Nat) : (x &&& (1#w <<< i) != 0#w) = (x.extractLsb' i 1).getLsbD 0 := by
  rw [flag_eq, BitVec.getLsbD_extractLsb']
  rfl

theorem ofBool_bit (b : Bool) : (BitVec.ofBool b).getLsbD 0 = b := by
  cases b <;> rfl

theorem and_one_eq_zero (x : BitVec w) : x &&& 1#w = 0#w ↔ x.getLsbD 0 = false := by
  simpa only [BitVec.shiftLeft_zero] using and_bit_eq_zero x 0

theorem slice_flag_iff (x : BitVec w) (i : Nat) (b : Bool) :
    x.extractLsb' i 1 = BitVec.ofBool b ↔ x.getLsbD i = b := by
  constructor
  · intro h
    have hbit := congrArg (fun y : BitVec 1 => y.getLsbD 0) h
    simpa using hbit
  · intro h
    apply BitVec.eq_of_getLsbD_eq
    intro j hj
    have hj0 : j = 0 := by omega
    simp [hj0, h]

/-- A slice of a slice. -/
theorem slice_slice (x : BitVec w) (a b : Nat) (h : b + m ≤ n) :
    (x.extractLsb' a n).extractLsb' b m = x.extractLsb' (a + b) m := by
  apply BitVec.eq_of_getLsbD_eq
  intro i hi
  have hn : b + i < n := by omega
  simp only [BitVec.getLsbD_extractLsb', hi, hn, decide_true, Bool.true_and, Nat.add_assoc]

/-! ### Slices of placed fields -/

/-- A slice that starts within the field. -/
theorem slice_place_within (lo d : Nat) (v : BitVec n) (h : lo + d + m ≤ w) :
    (place w lo v).extractLsb' (lo + d) m = v.extractLsb' d m := by
  apply BitVec.eq_of_getLsbD_eq
  intro i hi
  have hin : lo + d + i < w := by omega
  have hlo : lo ≤ lo + d + i := by omega
  have hd : lo + d + i - lo = d + i := by omega
  simp only [BitVec.getLsbD_extractLsb', getLsbD_place, hin, hlo, hd, decide_true, Bool.true_and]

/-- A field read back where it was placed. -/
theorem slice_place (lo : Nat) (v : BitVec n) (h : lo + n ≤ w) :
    (place w lo v).extractLsb' lo n = v :=
  (slice_place_within lo 0 v h).trans BitVec.extractLsb'_eq_self

theorem place_injective (lo : Nat) (h : lo + n ≤ w) : Function.Injective fun v : BitVec n => place w lo v := by
  intro v v' heq
  have hslice := congrArg (fun x : BitVec w => x.extractLsb' lo n) heq
  simpa only [slice_place lo _ h] using hslice

theorem setWidth_injective (h : n ≤ w) : Function.Injective fun v : BitVec n => v.setWidth w := by
  intro v v' heq
  apply place_injective 0 (Nat.le_trans (Nat.le_of_eq (Nat.zero_add n)) h)
  simpa only [place_zero] using heq

/-- A field read elsewhere is not seen. -/
theorem slice_place_apart (lo lo' : Nat) (v : BitVec n) (h : lo' + n ≤ lo ∨ lo + m ≤ lo') :
    (place w lo' v).extractLsb' lo m = 0#m := by
  apply BitVec.eq_of_getLsbD_eq
  intro i hi
  simp only [BitVec.getLsbD_extractLsb', getLsbD_place]
  rcases h with h | h
  · have : v.getLsbD (lo + i - lo') = false := BitVec.getLsbD_of_ge v (lo + i - lo') (by omega)
    simp [this]
  · have : ¬ lo' ≤ lo + i := by omega
    simp [this]

/-- A word masked to a field is that field's slice, placed back. -/
theorem and_mask (lo : Nat) (x : BitVec w) : x &&& mask w lo n = place w lo (x.extractLsb' lo n) := by
  apply BitVec.eq_of_getLsbD_eq
  intro i hi
  rw [BitVec.getLsbD_and, getLsbD_mask, getLsbD_place, BitVec.getLsbD_extractLsb']
  by_cases hlo : lo ≤ i
  · have hn : i - lo < n ↔ i < lo + n := by omega
    have hx : lo + (i - lo) = i := by omega
    simp [hi, hlo, hn, hx, Bool.and_comm]
  · simp [hlo]

/-- Words masked to a field are equal when their slices are. -/
theorem and_mask_eq_iff (lo : Nat) (x y : BitVec w) (h : lo + n ≤ w) :
    x &&& mask w lo n = y &&& mask w lo n ↔ x.extractLsb' lo n = y.extractLsb' lo n := by
  rw [and_mask, and_mask]
  exact (place_injective lo h).eq_iff

/-- Truncating by a mask of low ones is a change of width and back. -/
theorem and_mask_zero (x : BitVec w) : x &&& mask w 0 n = (x.setWidth n).setWidth w := by
  apply BitVec.eq_of_getLsbD_eq
  intro i hi
  simp only [BitVec.getLsbD_and, getLsbD_mask, BitVec.getLsbD_setWidth, hi, Nat.zero_le, Nat.zero_add,
    decide_true, Bool.true_and]
  exact Bool.and_comm _ _

theorem toNat_and_mask_zero (x : BitVec w) (h : n ≤ w) : (x &&& mask w 0 n).toNat = x.toNat % 2 ^ n := by
  rw [and_mask_zero, BitVec.toNat_setWidth_of_le h, BitVec.toNat_setWidth]

/-- A shift down and a change of width is a slice. -/
theorem setWidth_shift (n : Nat) (x : BitVec w) (a : Nat) : (x >>> a).setWidth n = x.extractLsb' a n := by
  apply BitVec.eq_of_getLsbD_eq
  intro i hi
  simp [hi]

theorem setWidth_eq_slice (n : Nat) (x : BitVec w) : x.setWidth n = x.extractLsb' 0 n := by
  rw [← setWidth_shift, BitVec.ushiftRight_zero]

/-- A shift down of the rest of the word needs no mask. -/
theorem shift_eq_place (n : Nat) (x : BitVec w) (a : Nat) (h : a + n = w) :
    x >>> a = place w 0 (x.extractLsb' a n) := by
  apply BitVec.eq_of_getLsbD_eq
  intro i hi
  rw [place_zero, BitVec.getLsbD_ushiftRight, BitVec.getLsbD_setWidth, BitVec.getLsbD_extractLsb']
  by_cases hn : i < n
  · simp [hi, hn]
  · simp [hn, BitVec.getLsbD_of_ge x (a + i) (by omega)]

theorem mask_place (n : Nat) (x : BitVec w) (lo : Nat) :
    (x &&& mask w 0 n) <<< lo = place w lo (x.extractLsb' 0 n) := by
  rw [and_mask_zero, ← setWidth_shift, BitVec.ushiftRight_zero]
  rfl

/-- The usual way to code a field: shift it down, mask it, shift it to its place. -/
theorem shift_mask_place (n : Nat) (x : BitVec w) (a lo : Nat) :
    ((x >>> a) &&& mask w 0 n) <<< lo = place w lo (x.extractLsb' a n) := by
  rw [and_mask_zero, setWidth_shift]
  rfl

/-- The same with a cast on the way. -/
theorem cast_mask_place {w' : Nat} (n : Nat) (x : BitVec w') (a lo : Nat) (h : n ≤ w) :
    (((x >>> a).setWidth w) &&& mask w 0 n) <<< lo = place w lo (x.extractLsb' a n) := by
  rw [and_mask_zero, BitVec.setWidth_setWidth_of_le _ h, setWidth_shift]
  rfl

/-- Widening in two steps is widening at once. -/
theorem setWidth_through {k : Nat} (v : BitVec k) (h : k ≤ n) :
    (v.setWidth n).setWidth w = v.setWidth w := by
  apply BitVec.eq_of_getLsbD_eq
  intro i hi
  by_cases hk : i < k
  · have : i < n := by omega
    simp [hi, this]
  · simp [hi, BitVec.getLsbD_of_ge v i (Nat.le_of_not_lt hk)]

/-- A field placed in a narrower word is placed as well in a wider one. -/
theorem setWidth_place {k : Nat} (lo : Nat) (v : BitVec k) (h : lo + k ≤ n) (hn : n ≤ w) :
    (place n lo v).setWidth w = place w lo v := by
  apply BitVec.eq_of_toNat_eq
  rw [BitVec.toNat_setWidth_of_le hn, toNat_place lo v h, toNat_place lo v (Nat.le_trans h hn)]

/-- A mask before the cast is as good as one after it. -/
theorem place_and_mask {k : Nat} (x : BitVec n) (lo : Nat) (h : k ≤ n) :
    place w lo (x &&& mask n 0 k) = place w lo (x.extractLsb' 0 k) := by
  rw [and_mask_zero, place, setWidth_through _ h, ← setWidth_shift, BitVec.ushiftRight_zero, place]

theorem masked_low {k : Nat} (n : Nat) (x : BitVec k) (h : n ≤ k) :
    (x &&& mask k 0 n).setWidth w = (x.setWidth n).setWidth w := by
  rw [and_mask_zero, setWidth_through _ h]

theorem low_masked {k : Nat} (n : Nat) (x : BitVec k) (h : n ≤ w) :
    x.setWidth w &&& mask w 0 n = (x.setWidth n).setWidth w := by
  rw [and_mask_zero, BitVec.setWidth_setWidth_of_le x h]

/-! ### Slices of put words -/

theorem slice_put (lo : Nat) (v : BitVec n) (x : BitVec w) (h : lo + n ≤ w) :
    (put lo v x).extractLsb' lo n = v := by
  apply BitVec.eq_of_getLsbD_eq
  intro i hi
  have hin : lo ≤ lo + i ∧ lo + i < lo + n := by omega
  rw [BitVec.getLsbD_extractLsb', getLsbD_put lo (lo + i) v x (by omega), if_pos hin]
  simp [hi]

/-- A put leaves every slice apart from its own. -/
theorem slice_put_apart (lo lo' : Nat) (v : BitVec n) (x : BitVec w)
    (h : lo' + n ≤ lo ∨ lo + m ≤ lo') : (put lo' v x).extractLsb' lo m = x.extractLsb' lo m := by
  apply BitVec.eq_of_getLsbD_eq
  intro i hi
  by_cases hw : lo + i < w
  · rw [BitVec.getLsbD_extractLsb', getLsbD_put lo' (lo + i) v x hw, if_neg (by omega),
      BitVec.getLsbD_extractLsb']
  · simp [BitVec.getLsbD_of_ge _ (lo + i) (Nat.le_of_not_lt hw)]

/-- The usual way to code a setter: clear the field, shift a value of its width to it. -/
theorem put_shift (x : BitVec w) (lo : Nat) (v : BitVec n) :
    (x &&& ~~~(mask w 0 n <<< lo)) ||| (v.setWidth w <<< lo) = put lo v x := by
  rw [mask, place_zero]
  rfl

/-- The lowest field is put without a shift. -/
theorem put_low (x : BitVec w) (v : BitVec n) : (x &&& ~~~mask w 0 n) ||| v.setWidth w = put 0 v x := by
  rw [put, place_zero]

/-- A code that is no wider than the field needs no mask. -/
theorem put_code {k : Nat} (x : BitVec w) (lo n : Nat) (v : BitVec k) (h : v.setWidth w = (v.setWidth n).setWidth w) :
    (x &&& ~~~(mask w 0 n <<< lo)) ||| (v.setWidth w <<< lo) = put lo (v.setWidth n) x := by
  rw [h, put_shift]

/-- A field of ones needs no clearing. -/
theorem put_ones (x : BitVec w) (lo n : Nat) : x ||| mask w lo n = put lo (BitVec.allOnes n) x := by
  apply BitVec.eq_of_getLsbD_eq
  intro i hi
  rw [put, ← mask, BitVec.getLsbD_or, BitVec.getLsbD_or, BitVec.getLsbD_and, BitVec.getLsbD_not]
  cases (mask w lo n).getLsbD i <;> simp [hi]

/-- The same setters, of a value that is masked to the field first. -/
theorem put_masked {k : Nat} (x : BitVec w) (lo n : Nat) (v : BitVec k) (h : n ≤ k) :
    (x &&& ~~~(mask w 0 n <<< lo)) ||| ((v &&& mask k 0 n).setWidth w <<< lo) = put lo (v.setWidth n) x := by
  rw [masked_low n v h, put_shift]

theorem put_masked_low {k : Nat} (x : BitVec w) (n : Nat) (v : BitVec k) (h : n ≤ k) :
    (x &&& ~~~mask w 0 n) ||| (v &&& mask k 0 n).setWidth w = put 0 (v.setWidth n) x := by
  rw [masked_low n v h, put_low]

/-- A field whose bits are given in place. -/
theorem put_in_place (lo n : Nat) (x y : BitVec w) :
    (x &&& ~~~mask w lo n) ||| (y &&& mask w lo n) = put lo (y.extractLsb' lo n) x := by
  rw [and_mask, put]

/-! ### One of several words -/

section Words
variable {ι : Type} [DecidableEq ι] (ws : ι → BitVec w) {j l : ι}

/-- A put in one word leaves every slice apart from it. -/
theorem slice_update_apart (lo lo' : Nat) (v : BitVec n) (h : j ≠ l ∨ lo + n ≤ lo' ∨ lo' + m ≤ lo) :
    (Function.update ws j (put lo v (ws j)) l).extractLsb' lo' m = (ws l).extractLsb' lo' m := by
  by_cases hl : l = j
  · have hapart := h.resolve_left fun hne => hne hl.symm
    rw [hl, Function.update_self, slice_put_apart lo' lo v _ hapart]
  · rw [Function.update_of_ne hl]

theorem getLsbD_update (lo : Nat) (v : BitVec n) {i : Nat} (hi : i < w) :
    (Function.update ws j (put lo v (ws j)) l).getLsbD i =
      if l = j ∧ lo ≤ i ∧ i < lo + n then v.getLsbD (i - lo) else (ws l).getLsbD i := by
  by_cases hl : l = j
  · simp only [hl, Function.update_self, getLsbD_put lo i v _ hi, true_and]
  · simp only [Function.update_of_ne hl, hl, false_and, if_false]

end Words

end Iommu.Lib.Word
