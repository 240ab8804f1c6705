import Iommu.PageTables.Mapping

/-! The leaves of a range that need not be aligned.

The number of leaves is rounded up from the length alone, and each leaf is cut to the
frames that its addresses are in. So a range that starts within a page may reach one
page more than it has leaves for (`leaves_cover_iff`). Nor does a leaf have a bit for
the right to execute: the others are granted as they were asked for (`rights_iff`). -/
namespace Iommu.PageTables
open Lib Intel.PageTables

namespace Range
variable (m : MapRange)

/-- A range within both address spaces whose bases have one page offset. -/
structure Straight : Prop where
  same_offset : m.guestBase.toNat % 4096 = m.hostBase.toNat % 4096
  guest_fits : m.guestBase.toNat + m.len.toNat ≤ 2 ^ 64
  host_fits : m.hostBase.toNat + m.len.toNat ≤ 2 ^ 52

/-- No leaf is cut short by an overflow. -/
def Total : Prop := ∀ leaf ∈ m.leaves, ∃ triple, leaf = .returns triple

/-- Every byte of the range is on the page of some leaf, at its place in the host range. -/
def Covered : Prop := ∀ k < m.len.toNat, ∃ g h pte, .returns (g, h, pte) ∈ m.leaves ∧
  (m.guestBase.toNat + k) / 4096 = g.toNat / 4096 ∧
    pte.frame.toNat + (m.guestBase.toNat + k) % 4096 = m.hostBase.toNat + k

variable {m}

theorem leaf_of_straight (hs : Straight m) {i : Nat} (hi : i < m.pageCount.toNat) :
    ∃ g h, m.leaf (BitVec.ofNat 64 i) = .returns (g, h, SecondStagePte.page h m.perms) ∧
      g.toNat = m.guestBase.toNat + 4096 * i ∧ h.toNat = m.hostBase.toNat + 4096 * i := by
  have hguest := hs.guest_fits
  have hhost := hs.host_fits
  rw [toNat_pageCount] at hi
  exact leaf_of_fits m (by omega) (by omega) (by omega)

theorem total_of_straight (hs : Straight m) : Total m := by
  intro leaf hmem
  obtain ⟨i, hi, rfl⟩ := List.mem_map.mp hmem
  obtain ⟨g, h, hleaf, -⟩ := leaf_of_straight hs (List.mem_range.mp hi)
  exact ⟨_, hleaf⟩

/-- What is yielded: one leaf for each page from the base. -/
theorem mem_leaves_iff (hs : Straight m) (g h : U64) (pte : SecondStagePte) : .returns (g, h, pte) ∈ m.leaves ↔
    ∃ i < m.pageCount.toNat, g.toNat = m.guestBase.toNat + 4096 * i ∧ h.toNat = m.hostBase.toNat + 4096 * i ∧
      pte = SecondStagePte.page h m.perms := by
  constructor
  · intro hmem
    obtain ⟨i, hi, heq⟩ := List.mem_map.mp hmem
    obtain ⟨g', h', hleaf, hg, hh⟩ := leaf_of_straight hs (List.mem_range.mp hi)
    cases hleaf.symm.trans heq
    exact ⟨i, List.mem_range.mp hi, hg, hh, rfl⟩
  · rintro ⟨i, hi, hg, hh, rfl⟩
    obtain ⟨g', h', hleaf, hg', hh'⟩ := leaf_of_straight hs hi
    obtain rfl : g' = g := BitVec.eq_of_toNat_eq (hg'.trans hg.symm)
    obtain rfl : h' = h := BitVec.eq_of_toNat_eq (hh'.trans hh.symm)
    exact hleaf ▸ leaf_mem m hi

/-- The frame of a leaf is the page that its host address is in. -/
theorem frame_page {h : U64} (h52 : h.toNat < 2 ^ 52) (perms : Perm) :
    (SecondStagePte.page h perms).frame.toNat = h.toNat / 4096 * 4096 := by
  rw [SecondStagePte.frame, page_frame, toNat_and_paMask]
  omega

/-- A byte is covered when its page is among those yielded. -/
theorem byte_covered_iff (hs : Straight m) {k : Nat} (hk : k < m.len.toNat) :
    (∃ g h pte, .returns (g, h, pte) ∈ m.leaves ∧ (m.guestBase.toNat + k) / 4096 = g.toNat / 4096 ∧
      pte.frame.toNat + (m.guestBase.toNat + k) % 4096 = m.hostBase.toNat + k) ↔
    (m.guestBase.toNat + k) / 4096 < m.guestBase.toNat / 4096 + m.pageCount.toNat := by
  constructor
  · rintro ⟨g, h, pte, hmem, hpage, -⟩
    obtain ⟨i, hi, hg, -⟩ := (mem_leaves_iff hs g h pte).mp hmem
    omega
  · intro hpage
    have hoffset := hs.same_offset
    have hhost := hs.host_fits
    have hcount := toNat_pageCount m
    obtain ⟨i, hi⟩ : ∃ i, (m.guestBase.toNat + k) / 4096 = m.guestBase.toNat / 4096 + i :=
      Nat.exists_eq_add_of_le (Nat.div_le_div_right (Nat.le_add_right _ k))
    obtain ⟨g, h, hleaf, hg, hh⟩ := leaf_of_straight hs (show i < m.pageCount.toNat by omega)
    refine ⟨g, h, _, hleaf ▸ leaf_mem m (by omega), by omega, ?_⟩
    rw [frame_page (by omega)]
    omega

end Range

/-- The pages that a range of bytes reaches, and the pages that its length has. -/
theorem pages_reached_iff (base : Nat) {len : Nat} (h : 0 < len) :
    (∀ k < len, (base + k) / 4096 < base / 4096 + (len + 4095) / 4096) ↔
      base % 4096 + (len - 1) % 4096 < 4096 := by
  constructor
  · intro hall
    have hlast := hall (len - 1) (by omega)
    omega
  · intro hfits k hk
    omega

/-- **When the leaves of a range cover it**: when it is empty, or ends in the last page
that its length has room for. -/
theorem leaves_cover_iff (m : MapRange) (hs : Range.Straight m) : (Range.Total m ∧ Range.Covered m) ↔
    m.len = 0#64 ∨ m.guestBase.toNat % 4096 + (m.len.toNat - 1) % 4096 < 4096 := by
  have hcovered : Range.Covered m ↔ ∀ k < m.len.toNat,
      (m.guestBase.toNat + k) / 4096 < m.guestBase.toNat / 4096 + (m.len.toNat + 4095) / 4096 := by
    rw [← Range.toNat_pageCount]
    exact forall₂_congr fun k hk => Range.byte_covered_iff hs hk
  rw [and_iff_right (Range.total_of_straight hs), hcovered]
  rcases Nat.eq_zero_or_pos m.len.toNat with hzero | hpos
  · have hlen : m.len = 0#64 := BitVec.eq_of_toNat_eq hzero
    simp [hlen]
  · have hlen : m.len ≠ 0#64 := fun h => by simp [h] at hpos
    rw [pages_reached_iff _ hpos, or_iff_right hlen]

theorem docRange_covered : Range.Total docRange ∧ Range.Covered docRange :=
  (leaves_cover_iff docRange ⟨rfl, by decide, by decide⟩).mpr (.inr (by decide))

/-- A page of bytes from the middle of a page has one leaf. -/
theorem unaligned_not_covered : ¬∀ m, Range.Straight m → Range.Total m ∧ Range.Covered m := by
  intro h
  have hcovered := (h ⟨0x1800#64, 0x9800#64, 0x1000#64, Perm.RW⟩ ⟨rfl, by decide, by decide⟩).2
  obtain ⟨g, h, pte, hmem, hpage, -⟩ := hcovered 0x800 (by decide)
  have hleaves : (⟨0x1800#64, 0x9800#64, 0x1000#64, Perm.RW⟩ : MapRange).leaves =
      [.returns (0x1800#64, 0x9800#64, ⟨0x9003#64⟩)] := by
    decide
  rw [hleaves] at hmem
  cases List.mem_singleton.mp hmem
  exact absurd hpage (by decide)

/-! ### Rights -/

theorem rxw_eq_iff (p q : Perm) : p.rxw = q.rxw ↔ ∀ i < 3, p.bits.getLsbD i = q.bits.getLsbD i := by
  have hrxw : ∀ p : Perm, p.rxw = (p.bits.extractLsb' 0 3).setWidth 8 := fun p => by
    rw [← Word.setWidth_eq_slice]
    exact Word.masked_low 3 p.bits (by decide)
  rw [hrxw, hrxw, (Word.setWidth_injective (by decide)).eq_iff, Word.slice_eq_iff]
  exact ⟨fun h i hi => h i (Nat.zero_le i) (by omega), fun h i _ hi => h i (by omega)⟩

/-- What the builders make of the rights: the right to execute is not one of them. -/
structure Builds (pte : SecondStagePte) (perms : Perm) : Prop where
  present : pte.bits.getLsbD 0 = true
  writable : pte.bits.getLsbD 1 = perms.bits.getLsbD 1
  not_executable : pte.bits.getLsbD 2 = false

theorem page_builds (paddr : U64) (perms : Perm) : Builds (SecondStagePte.page paddr perms) perms where
  present := page_present paddr perms
  writable := page_writable paddr perms
  not_executable := by simp [SecondStagePte.page, paMask]

theorem hugePage_builds (paddr : U64) (perms : Perm) : Builds (SecondStagePte.hugePage paddr perms) perms where
  present := by simp [SecondStagePte.hugePage]
  writable := by simp [SecondStagePte.hugePage, Perm.PAGE_SIZE, paMask]
  not_executable := by simp [SecondStagePte.hugePage, Perm.PAGE_SIZE, paMask]

/-- The rights are kept when the one that has no bit is not among them. -/
theorem Builds.rxw_iff {pte : SecondStagePte} {perms : Perm} (h : Builds pte perms)
    (hr : perms.contains Perm.R = true) : pte.perms.rxw = perms.rxw ↔ perms.contains Perm.X = false := by
  have hread : perms.bits.getLsbD 0 = true := (contains_bit perms (by decide)).symm.trans hr
  have hexec : perms.contains Perm.X = perms.bits.getLsbD 2 := contains_bit perms (by decide)
  have hkept : ∀ i < 3, pte.perms.bits.getLsbD i = pte.bits.getLsbD i := fun i hi => by
    have hall : ∀ i < 3, Perm.all.bits.getLsbD i = true := by decide
    rw [SecondStagePte.perms, Perm.fromBitsTruncate, BitVec.getLsbD_and, hall i hi, Bool.and_true]
  rw [rxw_eq_iff, hexec]
  constructor
  · intro hsame
    rw [← hsame 2 (by decide), hkept 2 (by decide), h.not_executable]
  · intro hx i hi
    have hbit : i = 0 ∨ i = 1 ∨ i = 2 := by omega
    rw [hkept i hi]
    rcases hbit with rfl | rfl | rfl
    · rw [h.present, hread]
    · rw [h.writable]
    · rw [h.not_executable, hx]

theorem leaf_pte {m : MapRange} {g h : U64} {pte : SecondStagePte} (hmem : .returns (g, h, pte) ∈ m.leaves) :
    pte = SecondStagePte.page h m.perms := by
  obtain ⟨i, -, hleaf⟩ := List.mem_map.mp hmem
  obtain ⟨g', -, hleaf⟩ := Exec.bind_eq_returns.mp hleaf
  obtain ⟨h', -, hleaf⟩ := Exec.bind_eq_returns.mp hleaf
  cases hleaf
  rfl

/-- The first leaf of a range is always yielded. -/
theorem first_leaf_mem {m : MapRange} (h : m.len ≠ 0#64) :
    .returns (m.guestBase, m.hostBase, SecondStagePte.page m.hostBase m.perms) ∈ m.leaves := by
  have hpos : m.len.toNat ≠ 0 := fun hzero => h (BitVec.eq_of_toNat_eq hzero)
  obtain ⟨g, h, hleaf, hg, hh⟩ := Range.leaf_of_fits m (Nat.two_pow_pos 52) m.guestBase.isLt m.hostBase.isLt
  obtain rfl : g = m.guestBase := BitVec.eq_of_toNat_eq hg
  obtain rfl : h = m.hostBase := BitVec.eq_of_toNat_eq hh
  rw [← hleaf]
  exact Range.leaf_mem m (by rw [Range.toNat_pageCount]; omega)

/-- **When a leaf grants what was asked for**: when that was not the right to execute. -/
theorem rights_iff (m : MapRange) (paddr : U64) (hr : m.perms.contains Perm.R = true) :
    ((∀ g h pte, .returns (g, h, pte) ∈ m.leaves → pte.perms.rxw = m.perms.rxw) ↔
      m.perms.contains Perm.X = false ∨ m.len = 0#64) ∧
    ((SecondStagePte.hugePage paddr m.perms).perms.rxw = m.perms.rxw ↔ m.perms.contains Perm.X = false) := by
  refine ⟨?_, (hugePage_builds paddr m.perms).rxw_iff hr⟩
  constructor
  · intro hall
    by_cases hlen : m.len = 0#64
    · exact .inr hlen
    · exact .inl (((page_builds _ _).rxw_iff hr).mp (hall _ _ _ (first_leaf_mem hlen)))
  · rintro (hx | hlen) g h pte hmem
    · rw [leaf_pte hmem]
      exact ((page_builds _ _).rxw_iff hr).mpr hx
    · have hnone : m.leaves = [] := by simp [MapRange.leaves, MapRange.pageCount, hlen]
      exact absurd (hnone ▸ hmem) List.not_mem_nil

theorem docRange_rights : (∀ g h pte, .returns (g, h, pte) ∈ docRange.leaves → pte.perms.rxw = docRange.perms.rxw) ∧
    (SecondStagePte.hugePage 0x200000#64 docRange.perms).perms.rxw = docRange.perms.rxw :=
  have hrights := rights_iff docRange 0x200000#64 (by decide)
  ⟨hrights.1.mpr (.inl (by decide)), hrights.2.mpr (by decide)⟩

/-- The right to execute is lost. -/
theorem execute_lost : ¬∀ (m : MapRange) (paddr : U64), m.perms.contains Perm.R = true →
    (∀ g h pte, .returns (g, h, pte) ∈ m.leaves → pte.perms.rxw = m.perms.rxw) ∧
      (SecondStagePte.hugePage paddr m.perms).perms.rxw = m.perms.rxw := by
  intro h
  have hrights := (h ⟨0x1000#64, 0x9000#64, 0x1000#64, Perm.RWX⟩ 0x200000#64 (by decide)).2
  exact absurd hrights (by decide)

end Iommu.PageTables
