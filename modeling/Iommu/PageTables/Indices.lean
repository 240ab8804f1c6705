import Iommu.Extraction
import Iommu.PageTables.Walk
import Mathlib.Algebra.BigOperators.Intervals

/-! Page-table indices (`index_at`, `pagetables.rs` of both crates).

An address within the width of a tree is a page and an offset in it, and a page is named
by an index for each level: the indices are consecutive groups of nine bits, the first of
them where the offset ends. So they add up to the page (`sum_slots`), two pages never have
the same ones, and any indices at all are those of some page. -/
namespace Iommu.PageTables
open Lib

/-- `index_at`, on the words it is computed with. -/
def indexAtWord (shifts : List U32) (extract : U64 → U8 → U8 → Exec U64) (vaddr : U64) (level : U8) : Exec Nat := do
  let i ← Exec.subWord level 1#8
  let shift ← Exec.index shifts i.toNat
  let top ← Exec.add shift 8#32
  let index ← extract vaddr (top.setWidth 8) (shift.setWidth 8)
  return index.toNat

end Iommu.PageTables

namespace Iommu.Intel.PageTables
open Lib

/-- `LEVEL_SHIFT`. -/
def levelShifts : List U32 := [12#32, 21#32, 30#32, 39#32, 48#32]

def indexAt : U64 → U8 → Exec Nat := Iommu.PageTables.indexAtWord levelShifts Bits.extractBits

end Iommu.Intel.PageTables

namespace Iommu.Amd.PageTables
open Lib

/-- `LEVEL_SHIFT`. -/
def levelShifts : List U32 := [12#32, 21#32, 30#32, 39#32, 48#32]

def indexAt : U64 → U8 → Exec Nat := Iommu.PageTables.indexAtWord levelShifts Bits.extractBits

end Iommu.Amd.PageTables

namespace Iommu.PageTables
open Lib

/-! ### The index of the walk -/

theorem le_of_mem_levelShifts {shift : Nat} (h : shift ∈ levelShifts) : shift ≤ 48 := by
  revert shift
  decide

/-- **On words it is the index that the walk uses**, stopped where that is stopped. -/
theorem indexAtWord_eq_indexAt {shifts : List U32} (hshifts : shifts.map BitVec.toNat = levelShifts) (vaddr : U64)
    (level : U8) : indexAtWord shifts extractBitsWord vaddr level = indexAt vaddr level.toNat := by
  rw [indexAtWord, indexAt, levelShift, ← hshifts]
  by_cases hlevel : 1#8 ≤ level
  · have hlevel' : 1 ≤ level.toNat := hlevel
    have hi : (level - 1#8).toNat = level.toNat - 1 := BitVec.toNat_sub_of_le hlevel
    rw [Exec.subWord_of_le hlevel, Exec.sub_of_le hlevel', Exec.returns_bind, Exec.returns_bind, hi]
    simp only [Exec.index, List.getElem?_map]
    cases hget : shifts[level.toNat - 1]? with
    | none => rfl
    | some shift =>
      have hle : shift.toNat ≤ 48 := by
        apply le_of_mem_levelShifts
        rw [← hshifts]
        exact List.mem_map_of_mem (List.mem_of_getElem? hget)
      have hadd : shift.toNat + (8#32).toNat < 2 ^ 32 := by
        rw [BitVec.toNat_ofNat]
        omega
      have hsum : (shift + 8#32).toNat = shift.toNat + 8 := BitVec.toNat_add_of_lt hadd
      have hlow : (shift.setWidth 8).toNat = shift.toNat := by
        rw [BitVec.toNat_setWidth, Nat.mod_eq_of_lt (by omega)]
      have htop : ((shift + 8#32).setWidth 8).toNat = shift.toNat + 8 := by
        rw [BitVec.toNat_setWidth, hsum, Nat.mod_eq_of_lt (by omega)]
      simp only [Option.map_some, Exec.returns_bind, Exec.add_of_lt hadd, extractBitsWord_eq_checked, hlow, htop]
  · have hlevel' : ¬1 ≤ level.toNat := hlevel
    rw [Exec.subWord, Exec.sub, if_neg hlevel, if_neg hlevel']
    rfl

/-- The shift of a level in a crate's own table. -/
theorem shift_eq_shiftOf {shifts : List U32} (hshifts : shifts.map BitVec.toNat = levelShifts) {level : Nat}
    (h : 1 ≤ level) (h5 : level ≤ 5) : (shifts.getD (level - 1) 0#32).toNat = shiftOf level := by
  have hmap : (shifts.map BitVec.toNat).getD (level - 1) (0#32).toNat = (shifts.getD (level - 1) 0#32).toNat := by
    simp only [List.getD_eq_getElem?_getD, List.getElem?_map, Option.getD_map]
  rw [← hmap, hshifts]
  exact levelShifts_getD h h5

/-! ### Indices as digits -/

/-- The index of a level is a group of nine bits. -/
theorem slot_eq_part (v : U64) {i : Nat} (h5 : i + 1 ≤ 5) :
    (slotOf v (i + 1)).toNat = Positional.part 2 v.toNat (12 + 9 * i) 9 := toNat_slotOf v h5

/-- A sum over the levels of a tree, counted from zero. -/
theorem sum_levels (levels : Nat) (f : Nat → Nat) :
    ∑ l ∈ Finset.Icc 1 levels, f l = ∑ i ∈ Finset.range levels, f (i + 1) := by
  rw [← Finset.Ico_add_one_right_eq_Icc, Finset.sum_Ico_eq_sum_range, Nat.add_sub_cancel]
  exact Finset.sum_congr rfl fun i _ => congrArg f (Nat.add_comm 1 i)

/-- An address, as far as a tree of some levels has bits for it, is its offset and its
indices in their places. -/
theorem sum_slots (v : U64) {levels : Nat} (h5 : levels ≤ 5) :
    v.toNat % 2 ^ (12 + 9 * levels) =
      v.toNat % 4096 + ∑ l ∈ Finset.Icc 1 levels, (slotOf v l).toNat * 2 ^ shiftOf l := by
  have hterm : ∀ i ∈ Finset.range levels, Positional.part 2 v.toNat (12 + 9 * i) 9 * 2 ^ (9 * i) * 2 ^ 12 =
      (slotOf v (i + 1)).toNat * 2 ^ shiftOf (i + 1) := fun i hi => by
    have hi := Finset.mem_range.mp hi
    rw [slot_eq_part v (by omega), Nat.mul_assoc, ← Nat.pow_add, Nat.add_comm (9 * i) 12]
    rfl
  calc v.toNat % 2 ^ (12 + 9 * levels)
    _ = Positional.part 2 v.toNat 0 (12 + 9 * levels) := (Positional.part_zero _ _).symm
    _ = Positional.part 2 v.toNat 12 (9 * levels) * 2 ^ 12 + v.toNat % 4096 := by
      rw [Positional.part_append, Positional.part_zero, Nat.zero_add]
      rfl
    _ = v.toNat % 4096 + ∑ i ∈ Finset.range levels, (slotOf v (i + 1)).toNat * 2 ^ shiftOf (i + 1) := by
      rw [Positional.part_eq_sum, Finset.sum_mul, Finset.sum_congr rfl hterm, Nat.add_comm]
    _ = v.toNat % 4096 + ∑ l ∈ Finset.Icc 1 levels, (slotOf v l).toNat * 2 ^ shiftOf l := by
      rw [sum_levels]

/-! ### Pages -/

/-- Addresses within a tree that have the same indices are on one page. -/
theorem page_of_slots {v v' : U64} {levels : Nat} (h5 : levels ≤ 5) (hv : v.toNat < 2 ^ (12 + 9 * levels))
    (hv' : v'.toNat < 2 ^ (12 + 9 * levels)) (h : ∀ l, 1 ≤ l → l ≤ levels → slotOf v l = slotOf v' l) :
    v.toNat / 4096 = v'.toNat / 4096 := by
  have hgroup : ∀ i, i < levels →
      Positional.part 2 v.toNat (12 + 9 * i) 9 = Positional.part 2 v'.toNat (12 + 9 * i) 9 := fun i hi => by
    rw [← slot_eq_part v (by omega), ← slot_eq_part v' (by omega), h (i + 1) (Nat.succ_pos i) hi]
  calc v.toNat / 4096
    _ = Positional.part 2 v.toNat 12 (9 * levels) := (Positional.part_top hv).symm
    _ = Positional.part 2 v'.toNat 12 (9 * levels) := Positional.part_congr hgroup
    _ = v'.toNat / 4096 := Positional.part_top hv'

/-- Any indices are those of a page within the tree. -/
theorem exists_page {levels : Nat} (h5 : levels ≤ 5) (index : Nat → Nat)
    (h : ∀ l, 1 ≤ l → l ≤ levels → index l < 512) :
    ∃ v : U64, v.toNat < 2 ^ (12 + 9 * levels) ∧ v.toNat % 4096 = 0 ∧
      ∀ l, 1 ≤ l → l ≤ levels → (slotOf v l).toNat = index l := by
  obtain ⟨page, hlt, hgroup⟩ := Positional.exists_parts (b := 2) 9 levels (fun i => index (i + 1))
    fun i hi => h (i + 1) (Nat.succ_pos i) hi
  have hwithin : page * 2 ^ 12 < 2 ^ (12 + 9 * levels) := by
    rw [Nat.pow_add, Nat.mul_comm]
    exact Nat.mul_lt_mul_of_pos_left hlt (Nat.two_pow_pos 12)
  have hword : 2 ^ (12 + 9 * levels) ≤ 2 ^ 64 := Nat.pow_le_pow_right (by decide) (by omega)
  have hv : (BitVec.ofNat 64 (page * 2 ^ 12)).toNat = page * 2 ^ 12 := by
    rw [BitVec.toNat_ofNat, Nat.mod_eq_of_lt (Nat.lt_of_lt_of_le hwithin hword)]
  refine ⟨BitVec.ofNat 64 (page * 2 ^ 12), ?_, ?_, fun l h1 hl => ?_⟩
  · rw [hv]
    exact hwithin
  · rw [hv]
    exact Nat.mul_mod_left page 4096
  · obtain ⟨i, rfl⟩ := Nat.exists_eq_add_of_le' h1
    rw [slot_eq_part _ (by omega), hv, Positional.part_mul_pow (by decide), hgroup i hl]

/-- What the indices of a tree of some levels are to the addresses. -/
structure IdentifyPages (indexAt : U64 → U8 → Exec Nat) (shifts : List U32) (levels : Nat) : Prop where
  /-- They are the digits of the address, above its page offset. -/
  digits : ∀ v : U64, ∃ index : Nat → Nat,
    (∀ l, 1 ≤ l → l ≤ levels → indexAt v (BitVec.ofNat 8 l) = .returns (index l) ∧ index l < 512) ∧
    v.toNat % 2 ^ (12 + 9 * levels) =
      v.toNat % 4096 + ∑ l ∈ Finset.Icc 1 levels, index l * 2 ^ (shifts.getD (l - 1) 0#32).toNat
  /-- Within the tree they belong to one page. -/
  page : ∀ v v' : U64, v.toNat < 2 ^ (12 + 9 * levels) → v'.toNat < 2 ^ (12 + 9 * levels) →
    (∀ l, 1 ≤ l → l ≤ levels → indexAt v (BitVec.ofNat 8 l) = indexAt v' (BitVec.ofNat 8 l)) →
    v.toNat / 4096 = v'.toNat / 4096
  /-- Every choice of them is that of a page. -/
  reached : ∀ index : Nat → Nat, (∀ l, 1 ≤ l → l ≤ levels → index l < 512) →
    ∃ v : U64, v.toNat < 2 ^ (12 + 9 * levels) ∧ v.toNat % 4096 = 0 ∧
      ∀ l, 1 ≤ l → l ≤ levels → indexAt v (BitVec.ofNat 8 l) = .returns (index l)

theorem indexAtWord_slot {shifts : List U32} (hshifts : shifts.map BitVec.toNat = levelShifts) (v : U64) {l : Nat}
    (h : 1 ≤ l) (h5 : l ≤ 5) :
    indexAtWord shifts extractBitsWord v (BitVec.ofNat 8 l) = .returns (slotOf v l).toNat := by
  have hl : (BitVec.ofNat 8 l).toNat = l := by
    rw [BitVec.toNat_ofNat, Nat.mod_eq_of_lt (by omega)]
  rw [indexAtWord_eq_indexAt hshifts, hl, indexAt_eq v h h5]

theorem indexAtWord_identify {shifts : List U32} (hshifts : shifts.map BitVec.toNat = levelShifts) {levels : Nat}
    (h5 : levels ≤ 5) : IdentifyPages (indexAtWord shifts extractBitsWord) shifts levels where
  digits v := by
    refine ⟨fun l => (slotOf v l).toNat, fun l h1 hl => ?_, ?_⟩
    · have hl5 := Nat.le_trans hl h5
      exact ⟨indexAtWord_slot hshifts v h1 hl5, slotOf_lt v hl5⟩
    · rw [sum_slots v h5]
      refine congrArg _ (Finset.sum_congr rfl fun l hl => ?_)
      obtain ⟨h1, hl⟩ := Finset.mem_Icc.mp hl
      rw [shift_eq_shiftOf hshifts h1 (Nat.le_trans hl h5)]
  page v v' hv hv' h := by
    refine page_of_slots h5 hv hv' fun l h1 hl => ?_
    have hl5 := Nat.le_trans hl h5
    have hindex := h l h1 hl
    rw [indexAtWord_slot hshifts v h1 hl5, indexAtWord_slot hshifts v' h1 hl5, Exec.returns.injEq] at hindex
    exact BitVec.eq_of_toNat_eq hindex
  reached index h := by
    obtain ⟨v, hv, hoffset, hslots⟩ := exists_page h5 index h
    refine ⟨v, hv, hoffset, fun l h1 hl => ?_⟩
    rw [indexAtWord_slot hshifts v h1 (Nat.le_trans hl h5), hslots l h1 hl]

/-- **Indices identify a page** in both crates, at every depth of a tree. -/
theorem pages_identified (levels : Nat) (h5 : levels ≤ 5) :
    IdentifyPages Intel.PageTables.indexAt Intel.PageTables.levelShifts levels ∧
      IdentifyPages Amd.PageTables.indexAt Amd.PageTables.levelShifts levels :=
  ⟨indexAtWord_identify rfl h5, indexAtWord_identify rfl h5⟩

/-- At the full depth, where an index is taken at each of the shifts. -/
theorem five_levels_identify :
    IdentifyPages Intel.PageTables.indexAt Intel.PageTables.levelShifts 5 ∧
      IdentifyPages Amd.PageTables.indexAt Amd.PageTables.levelShifts 5 :=
  pages_identified 5 (by decide)

end Iommu.PageTables
