import Iommu.PageTables.Range

/-! The page sizes that are translated.

A leaf is a page of 4 KiB, 2 MiB or 1 GiB, and the entries of levels 4 and 5 have
tables below them only. The loop tests bit 7 at every level alike, so such an entry
with bit 7 set ends a walk as a leaf of 512 GiB or more. -/
namespace Iommu.PageTables
open Lib

/-- A success is at a level that has pages. -/
def PageSized {P : Type} (out : Exec (Except WalkError (WalkResult P))) : Prop :=
  ∀ r, out = .returns (.ok r) → 1 ≤ r.level ∧ r.level ≤ 3

section Walk
variable {P : Type} (permsOf : U64 → P) (vaddr : U64) (fetch : U64 → U64)

theorem walkLoop_sized_iff {levels : Nat} (h : 1 ≤ levels) (h5 : levels ≤ 5) (root : U64) :
    PageSized (walkLoop permsOf vaddr (fun _ => fetch) levels root) ↔
      ¬FirstFits vaddr levels root ∨ ∀ k, 4 ≤ k → ¬LeafAt fetch vaddr levels root k := by
  have hok := walkLoop_ok_iff permsOf vaddr fetch h h5 root
  constructor
  · intro hsized
    refine or_iff_not_imp_left.mpr fun hfit k hk hleaf => ?_
    obtain ⟨r, hr, rfl⟩ := (hok k).mpr ⟨not_not.mp hfit, hleaf⟩
    have := (hsized r hr).2
    omega
  · intro hnone r hr
    obtain ⟨hfit, hleaf⟩ := (hok r.level).mp ⟨r, hr, rfl⟩
    refine ⟨hleaf.1, Nat.le_of_not_lt fun hlt => ?_⟩
    exact hnone.resolve_left (not_not.mpr hfit) r.level hlt hleaf

theorem walkWith_sized_iff {widthChecked : Bool} {levels : Nat} (h : 1 ≤ levels) (h5 : levels ≤ 5)
    (root : U64) : PageSized (walkWith permsOf vaddr fetch widthChecked levels root) ↔
      (widthChecked = true ∧ 2 ^ (12 + 9 * levels) ≤ vaddr.toNat) ∨ ¬FirstFits vaddr levels root ∨
        ∀ k, 4 ≤ k → ¬LeafAt fetch vaddr levels root k := by
  have hin : vaddr >>> (shiftOf levels + 9) = 0#64 ↔ ¬2 ^ (12 + 9 * levels) ≤ vaddr.toNat := by
    rw [shift_eq_zero_iff, width_eq h, Nat.not_le]
  by_cases hout : widthChecked = true ∧ 2 ^ (12 + 9 * levels) ≤ vaddr.toNat
  · obtain ⟨rfl, hwide⟩ := hout
    have htoo := walkWith_too_large permsOf vaddr fetch h h5 root fun hzero => hin.mp hzero hwide
    refine ⟨fun _ => .inl ⟨rfl, hwide⟩, fun _ r hr => ?_⟩
    cases htoo.symm.trans hr
  · rw [or_iff_right hout, walkWith_loop permsOf vaddr fetch h h5 root fun hc => hin.mpr fun hwide => hout ⟨hc, hwide⟩]
    exact walkLoop_sized_iff permsOf vaddr fetch h h5 root

end Walk

/-- **Only architectural sizes are translated** when no entry of level 4 or 5 ends the path. -/
theorem page_sizes_iff (fetch : U64 → U64) (levels : Nat) (h : 1 ≤ levels) (h5 : levels ≤ 5)
    (root vaddr : U64) :
    (∀ stage, PageSized (Intel.PageTables.walk stage levels root vaddr fetch) ↔
      (stage = .second ∧ 2 ^ (12 + 9 * levels) ≤ vaddr.toNat) ∨ ¬FirstFits vaddr levels root ∨
        ∀ k, 4 ≤ k → ¬LeafAt fetch vaddr levels root k) ∧
    (∀ format, PageSized (Amd.PageTables.walk format levels root vaddr fetch) ↔
      (format = .v2 ∧ 2 ^ (12 + 9 * levels) ≤ vaddr.toNat) ∨ ¬FirstFits vaddr levels root ∨
        ∀ k, 4 ≤ k → ¬LeafAt fetch vaddr levels root k) := by
  refine ⟨fun stage => ?_, fun format => ?_⟩
  · rw [← beq_iff_eq (a := stage)]
    exact walkWith_sized_iff _ vaddr fetch h h5 root
  · rw [← beq_iff_eq (a := format)]
    exact walkWith_sized_iff _ vaddr fetch h h5 root

/-- The tree of the documentation has a page of 4 KiB. -/
theorem docTree_sized : PageSized (Intel.PageTables.walk .second 4 0x1000#64 0x123#64 docTree) ∧
    PageSized (Amd.PageTables.walk .v2 4 0x1000#64 0x123#64 docTree) := by
  obtain ⟨hintel, hamd⟩ := page_sizes_iff docTree 4 (by decide) (by decide) 0x1000#64 0x123#64
  have htop : ∀ k, 4 ≤ k → ¬LeafAt docTree 0x123#64 4 0x1000#64 k := by
    rintro k hk ⟨-, hle, -, -, hend⟩
    obtain rfl : k = 4 := Nat.le_antisymm hle hk
    exact absurd hend (by decide)
  exact ⟨(hintel _).mpr (.inr (.inr htop)), (hamd _).mpr (.inr (.inr htop))⟩

/-- A tree whose top entry is present and has bit 7 set. -/
def hugeTree (paddr : U64) : U64 := if paddr = 0x1000#64 then 0x83#64 else 0#64

/-- It is translated as one page of 512 GiB. -/
theorem hugeTree_translated :
    (¬PageSized (Intel.PageTables.walk .second 4 0x1000#64 0x123#64 hugeTree) ∧
      Intel.PageTables.walk .second 4 0x1000#64 0x123#64 hugeTree = .returns (.ok ⟨0x123#64, 4, ⟨0x83#64⟩, true⟩)) ∧
    ¬PageSized (Amd.PageTables.walk .v2 4 0x1000#64 0x123#64 hugeTree) ∧
      Amd.PageTables.walk .v2 4 0x1000#64 0x123#64 hugeTree = .returns (.ok ⟨0x123#64, 4, ⟨0x83#64⟩, true⟩) := by
  have hintel : Intel.PageTables.walk .second 4 0x1000#64 0x123#64 hugeTree =
      .returns (.ok ⟨0x123#64, 4, ⟨0x83#64⟩, true⟩) := rfl
  have hamd : Amd.PageTables.walk .v2 4 0x1000#64 0x123#64 hugeTree =
      .returns (.ok ⟨0x123#64, 4, ⟨0x83#64⟩, true⟩) := rfl
  exact ⟨⟨fun hsized => absurd (hsized _ hintel).2 (by decide), hintel⟩,
    fun hsized => absurd (hsized _ hamd).2 (by decide), hamd⟩

end Iommu.PageTables
