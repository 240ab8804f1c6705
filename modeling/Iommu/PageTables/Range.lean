import Iommu.PageTables.Laws
import Iommu.Lib.Positional

/-! Addresses that a tree does not reach.

A tree of some levels is indexed by the low bits of an address, and the loop drops
the others, so it is the check before the loop that keeps addresses apart. One
format of one crate and one stage of the other make it. Here is what follows for the
walks that do not (`outside_rejected_iff`, `non_canonical_iff`), and for those that do
where the upper half of the addresses is canonical (`walks_alike_iff`). -/
namespace Iommu.PageTables
open Lib

/-! ### The width of a tree -/

theorem width_eq {levels : Nat} (h : 1 ≤ levels) : shiftOf levels + 9 = 12 + 9 * levels := by
  rw [shiftOf]
  omega

theorem shift_eq_zero_iff (v : U64) (n : Nat) : v >>> n = 0#64 ↔ v.toNat < 2 ^ n := by
  rw [← BitVec.toNat_inj, BitVec.toNat_ushiftRight, Nat.shiftRight_eq_div_pow, BitVec.toNat_zero,
    Nat.div_eq_zero_iff]
  have := Nat.two_pow_pos n
  omega

section Walk
variable {P : Type} (permsOf : U64 → P) (vaddr : U64) (fetch : Nat → U64 → U64)

/-- The loop knows no width. -/
theorem walkLoop_not_too_large {levels : Nat} (h5 : levels ≤ 5) (root : U64) (bits : Nat) :
    walkLoop permsOf vaddr fetch levels root ≠ .returns (.error (.addressTooLarge bits)) := by
  induction levels generalizing root with
  | zero => exact nofun
  | succ n ih =>
    by_cases hfit : root.toNat + 8 * (slotOf vaddr (n + 1)).toNat < 2 ^ 64
    · rw [walkLoop_step permsOf vaddr fetch h5 hfit rfl]
      split
      · exact nofun
      split
      · exact nofun
      · exact ih (by omega) _
    · rw [walkLoop_overflow permsOf vaddr fetch (Nat.succ_pos n) h5 hfit]
      exact nofun

/-- Addresses that agree on the bits a tree is indexed by are one to the loop. -/
theorem walkLoop_congr {vaddr' : U64} {levels : Nat} (h5 : levels ≤ 5)
    (hslot : ∀ l, l ≤ levels → slotOf vaddr' l = slotOf vaddr l)
    (hoffset : ∀ l, l ≤ levels → offsetOf vaddr' l = offsetOf vaddr l) (root : U64) :
    walkLoop permsOf vaddr' fetch levels root = walkLoop permsOf vaddr fetch levels root := by
  induction levels generalizing root with
  | zero => rfl
  | succ n ih =>
    have hrest : ∀ root, walkLoop permsOf vaddr' fetch n root = walkLoop permsOf vaddr fetch n root :=
      ih (by omega) (fun l hl => hslot l (by omega)) fun l hl => hoffset l (by omega)
    have hslot := hslot (n + 1) (Nat.le_refl _)
    have hresult : ∀ e, leafResult permsOf vaddr' (n + 1) e = leafResult permsOf vaddr (n + 1) e := fun e => by
      rw [leafResult, leafResult, hoffset (n + 1) (Nat.le_refl _)]
    by_cases hfit : root.toNat + 8 * (slotOf vaddr (n + 1)).toNat < 2 ^ 64
    · have hentry : entryAddr vaddr' (n + 1) root = entryAddr vaddr (n + 1) root := by
        rw [entryAddr, entryAddr, hslot]
      rw [walkLoop_step permsOf vaddr fetch h5 hfit rfl, walkLoop_step permsOf vaddr' fetch h5 (hslot ▸ hfit)
        (congrArg (fetch (n + 1)) hentry), hresult, hrest]
    · rw [walkLoop_overflow permsOf vaddr fetch (Nat.succ_pos n) h5 hfit,
        walkLoop_overflow permsOf vaddr' fetch (Nat.succ_pos n) h5 (hslot ▸ hfit)]

end Walk

/-! ### Outside the tree -/

/-- A v1 walk is its loop. -/
theorem v1_loop {levels : Nat} (h : 1 ≤ levels) (h5 : levels ≤ 5) (root iova : U64) (fetch : U64 → U64) :
    Amd.PageTables.walk .v1 levels root iova fetch =
      walkLoop Amd.PageTables.Perm.fromBitsRetain iova (fun _ => fetch) levels root :=
  walkWith_loop _ iova fetch h h5 root nofun

/-- What the width check is for, at one address. -/
def OutsideRejected (format : Amd.PageTables.Format) (levels : Nat) (root iova : U64)
    (fetch : U64 → U64) : Prop :=
  2 ^ (12 + 9 * levels) ≤ iova.toNat →
    Amd.PageTables.walk format levels root iova fetch =
      .returns (.error (.addressTooLarge (12 + 9 * levels)))

/-- **An address outside the tree is rejected** in a v2 tree only. -/
theorem outside_rejected_iff (format : Amd.PageTables.Format) (levels : Nat) (h : 1 ≤ levels)
    (h5 : levels ≤ 5) (root iova : U64) (fetch : U64 → U64) :
    OutsideRejected format levels root iova fetch ↔
      format = .v2 ∨ iova.toNat < 2 ^ (12 + 9 * levels) := by
  by_cases hin : iova.toNat < 2 ^ (12 + 9 * levels)
  · exact ⟨fun _ => .inr hin, fun _ hout => absurd hin (Nat.not_lt.mpr hout)⟩
  · have hshift : iova >>> (shiftOf levels + 9) ≠ 0#64 := by
      rw [ne_eq, shift_eq_zero_iff, width_eq h]
      exact hin
    cases format with
    | v1 =>
      constructor
      · intro hrejected
        have htoo := hrejected (Nat.not_lt.mp hin)
        rw [v1_loop h h5] at htoo
        exact absurd htoo (walkLoop_not_too_large _ iova _ h5 root _)
      · rintro (hformat | hlt)
        · cases hformat
        · exact absurd hlt hin
    | v2 =>
      refine ⟨fun _ => .inl rfl, fun _ _ => ?_⟩
      rw [← width_eq h]
      exact walkWith_too_large _ iova fetch h h5 root hshift

theorem v2_range_check : OutsideRejected .v2 4 0x1000#64 (1#64 <<< 48) fun _ => 0#64 :=
  (outside_rejected_iff .v2 4 (by decide) (by decide) 0x1000#64 (1#64 <<< 48) fun _ => 0#64).mpr (.inl rfl)

/-- In a v1 tree, addresses that differ only above its width are translated alike. -/
theorem v1_aliases {levels : Nat} (h : 1 ≤ levels) (h5 : levels ≤ 5) (root : U64) (fetch : U64 → U64)
    {iova iova' : U64} (hsame : iova'.toNat % 2 ^ (12 + 9 * levels) = iova.toNat % 2 ^ (12 + 9 * levels)) :
    Amd.PageTables.walk .v1 levels root iova' fetch = Amd.PageTables.walk .v1 levels root iova fetch := by
  have hwithin : ∀ l, l ≤ levels → shiftOf l + 9 ≤ 12 + 9 * levels := fun l hl => by
    rw [← width_eq h]
    exact Nat.add_le_add_right (shiftOf_mono hl) 9
  have hslot : ∀ l, l ≤ levels → slotOf iova' l = slotOf iova l := fun l hl => by
    apply BitVec.eq_of_toNat_eq
    rw [toNat_slotOf iova' (by omega), toNat_slotOf iova (by omega)]
    exact Positional.part_congr_of_mod (n := 9) hsame (hwithin l hl)
  have hoffset : ∀ l, l ≤ levels → offsetOf iova' l = offsetOf iova l := fun l hl => by
    have hbelow : 0 + shiftOf l ≤ 12 + 9 * levels := by
      have := hwithin l hl
      omega
    apply BitVec.eq_of_toNat_eq
    rw [toNat_offsetOf iova' (by omega), toNat_offsetOf iova (by omega), ← Positional.part_zero,
      ← Positional.part_zero]
    exact Positional.part_congr_of_mod hsame hbelow
  rw [v1_loop h h5, v1_loop h h5]
  exact walkLoop_congr _ iova _ h5 hslot hoffset root

/-- 2^48 + 0x123 is translated through four levels, as 0x123 is. -/
theorem v1_wide_translated :
    ¬OutsideRejected .v1 4 0x1000#64 0x1000000000123#64 docTree ∧
      Amd.PageTables.walk .v1 4 0x1000#64 0x1000000000123#64 docTree =
        .returns (.ok ⟨0x12345123#64, 1, ⟨0x12345003#64⟩, false⟩) ∧
      Amd.PageTables.walk .v1 4 0x1000#64 0x123#64 docTree =
        .returns (.ok ⟨0x12345123#64, 1, ⟨0x12345003#64⟩, false⟩) := by
  have hwide : Amd.PageTables.walk .v1 4 0x1000#64 0x1000000000123#64 docTree =
      .returns (.ok ⟨0x12345123#64, 1, ⟨0x12345003#64⟩, false⟩) := rfl
  refine ⟨fun hrejected => ?_, hwide, rfl⟩
  exact nomatch hwide.symm.trans (hrejected (by decide))

/-! ### Canonical addresses -/

/-- The bits from the top bit of the tree up are all equal. -/
def Canonical (levels : Nat) (v : U64) : Prop :=
  ∀ i, 12 + 9 * levels - 1 ≤ i → i < 64 → v.getLsbD i = v.getLsbD (12 + 9 * levels - 1)

/-- A canonical address is within the width of the tree in its lower half only. -/
theorem Canonical.shift_iff {levels : Nat} (h5 : levels ≤ 5) {v : U64} (hc : Canonical levels v) :
    v >>> (12 + 9 * levels) = 0#64 ↔ v.getLsbD (12 + 9 * levels - 1) = false := by
  constructor
  · intro hshift
    have htop := congrArg (fun x : U64 => x.getLsbD (63 - (12 + 9 * levels))) hshift
    rw [← hc 63 (by omega) (by decide)]
    simpa [show 12 + 9 * levels + (63 - (12 + 9 * levels)) = 63 by omega] using htop
  · intro hlow
    apply BitVec.eq_of_getLsbD_eq
    intro i hi
    rw [BitVec.getLsbD_ushiftRight, BitVec.getLsbD_zero]
    by_cases hin : 12 + 9 * levels + i < 64
    · rw [hc _ (by omega) hin, hlow]
    · exact BitVec.getLsbD_of_ge v _ (Nat.not_lt.mp hin)

section Ok
variable {P : Type} (permsOf : U64 → P) (vaddr : U64) (fetch : U64 → U64)

/-- The first entry lies within the address space. -/
def FirstFits (levels : Nat) (root : U64) : Prop := root.toNat + 8 * (slotOf vaddr levels).toNat < 2 ^ 64

/-- A loop succeeds at a level when it reads its first entry and its path ends there. -/
theorem walkLoop_ok_iff {levels : Nat} (h : 1 ≤ levels) (h5 : levels ≤ 5) (root : U64) (k : Nat) :
    (∃ r, walkLoop permsOf vaddr (fun _ => fetch) levels root = .returns (.ok r) ∧ r.level = k) ↔
      FirstFits vaddr levels root ∧ LeafAt fetch vaddr levels root k := by
  by_cases hfit : FirstFits vaddr levels root
  · rw [walkLoop_of_fit permsOf vaddr (fun _ => fetch) levels h5 root hfit, ← tree, and_iff_right hfit]
    simp only [report_leaf_iff]
    constructor
    · rintro ⟨r, ⟨hleaf, -⟩, rfl⟩
      exact hleaf
    · intro hleaf
      exact ⟨leafResult permsOf vaddr k (pathEntry fetch vaddr levels root k), ⟨hleaf, rfl⟩, rfl⟩
  · rw [walkLoop_overflow permsOf vaddr _ h h5 hfit]
    exact ⟨fun ⟨_, hr, _⟩ => (nomatch hr), fun ⟨hfits, _⟩ => absurd hfits hfit⟩

end Ok

/-- A first-stage walk is its loop. -/
theorem first_loop {levels : Nat} (h : 1 ≤ levels) (h5 : levels ≤ 5) (root vaddr : U64) (fetch : U64 → U64) :
    Intel.PageTables.walk .first levels root vaddr fetch =
      walkLoop Intel.PageTables.Perm.fromBitsTruncate vaddr (fun _ => fetch) levels root :=
  walkWith_loop _ vaddr fetch h h5 root nofun

/-- What a canonical check would be for, at one address. -/
def NonCanonicalFails (levels : Nat) (root vaddr : U64) (fetch : U64 → U64) : Prop :=
  ¬Canonical levels vaddr → ∀ r, Intel.PageTables.walk .first levels root vaddr fetch ≠ .returns (.ok r)

/-- **A non-canonical address fails** only for want of a leaf on its path. -/
theorem non_canonical_iff (levels : Nat) (h : levels = 4 ∨ levels = 5) (root vaddr : U64) (fetch : U64 → U64) :
    NonCanonicalFails levels root vaddr fetch ↔
      Canonical levels vaddr ∨ ¬FirstFits vaddr levels root ∨ ∀ k, ¬LeafAt fetch vaddr levels root k := by
  have hone : 1 ≤ levels := by omega
  have h5 : levels ≤ 5 := by omega
  have hok : (∃ r, Intel.PageTables.walk .first levels root vaddr fetch = .returns (.ok r)) ↔
      FirstFits vaddr levels root ∧ ∃ k, LeafAt fetch vaddr levels root k := by
    have hlevel := walkLoop_ok_iff Intel.PageTables.Perm.fromBitsTruncate vaddr fetch hone h5 root
    rw [first_loop hone h5]
    constructor
    · rintro ⟨r, hr⟩
      obtain ⟨hfit, hleaf⟩ := (hlevel r.level).mp ⟨r, hr, rfl⟩
      exact ⟨hfit, r.level, hleaf⟩
    · rintro ⟨hfit, k, hleaf⟩
      obtain ⟨r, hr, -⟩ := (hlevel k).mpr ⟨hfit, hleaf⟩
      exact ⟨r, hr⟩
  have hnever : (∀ r, Intel.PageTables.walk .first levels root vaddr fetch ≠ .returns (.ok r)) ↔
      ¬FirstFits vaddr levels root ∨ ∀ k, ¬LeafAt fetch vaddr levels root k := by
    rw [← not_exists, hok, not_and_or, not_exists]
  rw [NonCanonicalFails, hnever]
  exact or_iff_not_imp_left.symm

/-- In an empty tree no address is translated. -/
theorem empty_tree_fails : NonCanonicalFails 4 0x1000#64 0x1000000000123#64 fun _ => 0#64 := by
  refine (non_canonical_iff 4 (.inl rfl) 0x1000#64 0x1000000000123#64 _).mpr (.inr (.inr fun k hleaf => ?_))
  have hpresent : (0#64).getLsbD 0 = true := hleaf.2.2.2.1
  exact absurd hpresent (by decide)

/-- 2^48 + 0x123 is not canonical for four levels, and translated. -/
theorem first_stage_wide_translated : ¬NonCanonicalFails 4 0x1000#64 0x1000000000123#64 docTree ∧
    Intel.PageTables.walk .first 4 0x1000#64 0x1000000000123#64 docTree =
      .returns (.ok ⟨0x12345123#64, 1, ⟨0x3#64⟩, false⟩) := by
  have hwide : Intel.PageTables.walk .first 4 0x1000#64 0x1000000000123#64 docTree =
      .returns (.ok ⟨0x12345123#64, 1, ⟨0x3#64⟩, false⟩) := rfl
  have hcanonical : ¬Canonical 4 0x1000000000123#64 := fun hc => by
    have := hc 48 (by decide) (by decide)
    exact absurd this (by decide)
  exact ⟨fun hfails => hfails hcanonical _ hwide, hwide⟩

/-! ### The two walkers -/

/-- Both translate to the same page alike, or both miss the same entry. -/
def Alike {P Q : Type} (a : Exec (Except WalkError (WalkResult P)))
    (b : Exec (Except WalkError (WalkResult Q))) : Prop :=
  (∃ r s, a = .returns (.ok r) ∧ b = .returns (.ok s) ∧
    r.physical = s.physical ∧ r.level = s.level ∧ r.huge = s.huge) ∨
  ∃ k, a = .returns (.error (.notPresent k)) ∧ b = .returns (.error (.notPresent k))

theorem report_alike {P Q : Type} (permsOf : U64 → P) (permsOf' : U64 → Q) (vaddr : U64) (s : Stop U64) :
    Alike (report permsOf vaddr (some s)) (report permsOf' vaddr (some s)) := by
  cases s with
  | absent k => exact .inr ⟨k, rfl, rfl⟩
  | ends k e => exact .inl ⟨_, _, rfl, rfl, rfl, rfl, rfl⟩

theorem not_alike_too_large {P Q : Type} (bits : Nat) (b : Exec (Except WalkError (WalkResult Q))) :
    ¬Alike (P := P) (.returns (.error (.addressTooLarge bits))) b := by
  rintro (⟨_, _, hok, -⟩ | ⟨_, habsent, -⟩)
  · cases hok
  · cases habsent

/-- **The two crates walk a canonical address alike** in the lower half only. -/
theorem walks_alike_iff (levels : Nat) (h : levels = 4 ∨ levels = 5) (root : U64) (hr : Aligned root)
    (fetch : U64 → U64) (v : U64) (hc : Canonical levels v) :
    Alike (Amd.PageTables.walk .v2 levels root v fetch) (Intel.PageTables.walk .first levels root v fetch) ↔
      v.getLsbD (12 + 9 * levels - 1) = false := by
  have hone : 1 ≤ levels := by omega
  have h5 : levels ≤ 5 := by omega
  rw [← hc.shift_iff h5, ← width_eq hone]
  constructor
  · intro halike
    by_contra hwide
    have htoo : Amd.PageTables.walk .v2 levels root v fetch = .returns (.error (.addressTooLarge (shiftOf levels + 9))) :=
      walkWith_too_large _ v fetch hone h5 root hwide
    rw [htoo] at halike
    exact not_alike_too_large _ _ halike
  · intro hin
    obtain ⟨s, hs⟩ := (tree v fetch).resolve_total hone root
    have hamd : Amd.PageTables.walk .v2 levels root v fetch =
        report Amd.PageTables.Perm.fromBitsRetain v (some s) := by
      rw [← hs]
      exact walkWith_eq _ v fetch hone h5 root hr fun _ => hin
    have hintel : Intel.PageTables.walk .first levels root v fetch =
        report Intel.PageTables.Perm.fromBitsTruncate v (some s) := by
      rw [← hs]
      exact walkWith_eq _ v fetch hone h5 root hr nofun
    rw [hamd, hintel]
    exact report_alike _ _ v s

theorem docTree_alike : Alike (Amd.PageTables.walk .v2 4 0x1000#64 0x123#64 docTree)
    (Intel.PageTables.walk .first 4 0x1000#64 0x123#64 docTree) := by
  have hcanonical : Canonical 4 0x123#64 := by
    rw [Canonical]
    decide
  exact (walks_alike_iff 4 (.inl rfl) 0x1000#64 rfl docTree 0x123#64 hcanonical).mpr rfl

/-- The page of the documentation at the start of the upper half. -/
def upperTree (paddr : U64) : U64 := if paddr = 0x1800#64 then 0x2003#64 else docTree paddr

/-- It is translated by one crate and out of range for the other. -/
theorem upper_half_differs : Canonical 4 0xffff800000000000#64 ∧
    Intel.PageTables.walk .first 4 0x1000#64 0xffff800000000000#64 upperTree =
      .returns (.ok ⟨0x12345000#64, 1, ⟨0x3#64⟩, false⟩) ∧
    Amd.PageTables.walk .v2 4 0x1000#64 0xffff800000000000#64 upperTree =
      .returns (.error (.addressTooLarge 48)) ∧
    ¬Alike (Amd.PageTables.walk .v2 4 0x1000#64 0xffff800000000000#64 upperTree)
      (Intel.PageTables.walk .first 4 0x1000#64 0xffff800000000000#64 upperTree) := by
  have hamd : Amd.PageTables.walk .v2 4 0x1000#64 0xffff800000000000#64 upperTree =
      .returns (.error (.addressTooLarge 48)) := rfl
  have hcanonical : Canonical 4 0xffff800000000000#64 := by
    rw [Canonical]
    decide
  refine ⟨hcanonical, rfl, hamd, fun halike => ?_⟩
  rw [hamd] at halike
  exact not_alike_too_large _ _ halike

end Iommu.PageTables
