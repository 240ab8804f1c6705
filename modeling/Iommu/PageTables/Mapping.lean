import Iommu.PageTables.Chains
import Iommu.Lib.Positional

/-! Mapping, then walking.

`leaves` yields the leaf entries of a range and leaves the tables above them to
the caller. `Mapped` is what the caller owes for one page: a chain of `table`
entries from the root down to the leaf. Once every page of a range is mapped, the
walker translates every byte of it to the byte at the same distance from the host
base. -/
namespace Iommu.PageTables
open Lib Intel.PageTables

/-- The tables from `table` at a level down hold `pte` as the leaf of `g`: the slot
of `g` names the next table with a `table` entry at every level above 1. -/
def Mapped (fetch : U64 → U64) (g : U64) (pte : SecondStagePte) : Nat → U64 → Prop
  | 0, _ => False
  | 1, table => ∃ i, indexAt g 1 = .returns i ∧ fetch (slotAddr table i) = pte.bits
  | n + 2, table => ∃ i next, indexAt g (n + 2) = .returns i ∧ Aligned next ∧ next.toNat < 2 ^ 52 ∧
      fetch (slotAddr table i) = (SecondStagePte.table next).bits ∧ Mapped fetch g pte (n + 1) next

/-! ### Entries -/

theorem page_frame (paddr : U64) (perms : Perm) :
    (SecondStagePte.page paddr perms).bits &&& paMask = paddr &&& paMask := by
  have hflags : ((perms.bits &&& 0x3#64) ||| 1#64) &&& paMask = 0#64 := by
    rw [BitVec.and_or_distrib_right, BitVec.and_assoc, show 0x3#64 &&& paMask = 0#64 from rfl,
      BitVec.and_zero]
    rfl
  rw [SecondStagePte.page, BitVec.or_assoc]
  exact frame_or hflags paddr

theorem page_present (paddr : U64) (perms : Perm) :
    (SecondStagePte.page paddr perms).bits.getLsbD 0 = true := by
  simp [SecondStagePte.page]

theorem page_writable (paddr : U64) (perms : Perm) :
    (SecondStagePte.page paddr perms).bits.getLsbD 1 = perms.bits.getLsbD 1 := by
  simp [SecondStagePte.page, paMask]

/-- The entries that link the tables of a mapped page. -/
theorem links_table : Links fun next => (SecondStagePte.table next).bits := by
  have hflags : (fun next => (SecondStagePte.table next).bits) = fun next => (next &&& paMask) ||| 0x7#64 := by
    funext next
    rw [SecondStagePte.table, BitVec.or_assoc]
    rfl
  rw [hflags]
  exact links_of_flags rfl rfl rfl

/-- Containing a flag of one bit is having that bit. -/
theorem contains_bit (p : Perm) {i : Nat} (hi : i < 64) :
    p.contains ⟨1#64 <<< i⟩ = p.bits.getLsbD i := Word.has_bit p.bits hi

theorem truncate_writable (e : U64) :
    (Perm.fromBitsTruncate e).contains Perm.W = e.getLsbD 1 := by
  rw [Perm.W, contains_bit _ (by decide), Perm.fromBitsTruncate, BitVec.getLsbD_and,
    show Perm.all.bits.getLsbD 1 = true from rfl, Bool.and_true]

/-! ### The path of a mapped page -/

/-- Addresses of one 4 KiB page use the same slots. -/
theorem slotOf_page {v g : U64} (h : v.toNat / 4096 = g.toNat / 4096) {l : Nat} (h5 : l ≤ 5) :
    slotOf v l = slotOf g l := by
  have habove : 12 ≤ shiftOf l := Nat.le_add_right 12 _
  apply BitVec.eq_of_toNat_eq
  rw [toNat_slotOf v h5, toNat_slotOf g h5]
  exact Positional.part_congr_of_div (b := 2) (k := 12) h habove 9

/-- An address on a mapped page is chained to its leaf. -/
theorem Mapped.chained {fetch : U64 → U64} {g v : U64} {pte : SecondStagePte}
    (hv : v.toNat / 4096 = g.toNat / 4096) {levels : Nat} (h5 : levels ≤ 5) {root : U64}
    (hm : Mapped fetch g pte levels root) :
    Chained fetch v (fun next => (SecondStagePte.table next).bits) pte.bits 1 levels root := by
  have hindex : ∀ {l}, 1 ≤ l → l ≤ 5 → indexAt v l = indexAt g l := fun h1 hl => by
    rw [indexAt_eq v h1 hl, indexAt_eq g h1 hl, slotOf_page hv hl]
  induction levels generalizing root with
  | zero => exact hm.elim
  | succ n ih =>
    cases n with
    | zero =>
      obtain ⟨i, hi, he⟩ := hm
      exact .leaf ((hindex (Nat.le_refl 1) h5).trans hi) he
    | succ n =>
      obtain ⟨i, next, hi, ha, h52, he, hrest⟩ := hm
      exact .link next ((hindex (by omega) h5).trans hi) ha h52 he (ih (by omega) hrest)

/-- What the walk returns on a mapped page. -/
theorem walk_of_mapped {fetch : U64 → U64} {g h v : U64} {perms : Perm} {levels : Nat} {root : U64}
    (h5 : levels ≤ 5) (hr : Aligned root) (hfit : v >>> (shiftOf levels + 9) = 0#64)
    (hv : v.toNat / 4096 = g.toNat / 4096) (hh : Aligned h) (h52 : h.toNat < 2 ^ 52)
    (hm : Mapped fetch g (SecondStagePte.page h perms) levels root) :
    ∃ r, walk .second levels root v fetch = .returns (.ok r) ∧
      r.physical.toNat = h.toNat + v.toNat % 4096 ∧ r.level = 1 ∧ r.huge = false ∧
      r.perms.contains Perm.W = perms.contains Perm.W := by
  have hframe : (SecondStagePte.page h perms).bits &&& paMask = h := by
    rw [page_frame, hh.and_paMask h52]
  refine ⟨leafResult Perm.fromBitsTruncate v 1 (SecondStagePte.page h perms).bits, ?_, ?_, rfl, ?_, ?_⟩
  · exact (hm.chained hv h5).walk links_table (Nat.le_refl 1) h5 hr (fun _ => hfit)
      (page_present h perms) (.inr rfl)
  · exact leafResult_physical _ v (by decide) hframe hh
  · simp [leafResult]
  · rw [leafResult, truncate_writable, page_writable, Perm.W, contains_bit _ (by decide)]

/-! ### Ranges -/

namespace Range
variable (m : MapRange)

/-- A range that a walk of `levels` levels can reach, between 4 KiB boundaries. -/
structure Fits (levels : Nat) : Prop where
  guest_aligned : Aligned m.guestBase
  host_aligned : Aligned m.hostBase
  guest_fits : m.guestBase.toNat + 4096 * m.pageCount.toNat ≤ 2 ^ (12 + 9 * levels)
  host_fits : m.hostBase.toNat + 4096 * m.pageCount.toNat ≤ 2 ^ 52

/-- The page count rounds the length up. -/
theorem toNat_pageCount : m.pageCount.toNat = (m.len.toNat + 4095) / 4096 := by
  have hlt := m.len.isLt
  have hmod : m.len % 4096#64 > 0#64 ↔ m.len.toNat % 4096 > 0 := by
    rw [gt_iff_lt, BitVec.lt_def, BitVec.toNat_umod]
    rfl
  simp only [MapRange.pageCount, hmod]
  split
  · rw [BitVec.toNat_add, BitVec.toNat_udiv, show (4096#64).toNat = 4096 from rfl,
      show (1#64).toNat = 1 from rfl]
    omega
  · rw [BitVec.toNat_udiv, show (4096#64).toNat = 4096 from rfl]
    omega

/-- A page whose sums do not wrap is yielded. -/
theorem leaf_of_fits {i : Nat} (hi : i < 2 ^ 52) (hguest : m.guestBase.toNat + 4096 * i < 2 ^ 64)
    (hhost : m.hostBase.toNat + 4096 * i < 2 ^ 64) :
    ∃ g h, m.leaf (BitVec.ofNat 64 i) = .returns (g, h, SecondStagePte.page h m.perms) ∧
      g.toNat = m.guestBase.toNat + 4096 * i ∧ h.toNat = m.hostBase.toNat + 4096 * i := by
  have hshift : (BitVec.ofNat 64 i <<< 12).toNat = 4096 * i := by
    rw [BitVec.toNat_shiftLeft, BitVec.toNat_ofNat, Nat.shiftLeft_eq]
    omega
  have hg : m.guestBase.toNat + (BitVec.ofNat 64 i <<< 12).toNat < 2 ^ 64 := by omega
  have hh : m.hostBase.toNat + (BitVec.ofNat 64 i <<< 12).toNat < 2 ^ 64 := by omega
  refine ⟨m.guestBase + BitVec.ofNat 64 i <<< 12, m.hostBase + BitVec.ofNat 64 i <<< 12, ?_, ?_, ?_⟩
  · simp only [MapRange.leaf, Exec.add_of_lt hg, Exec.add_of_lt hh, Exec.returns_bind, Exec.pure_eq]
  · rw [BitVec.toNat_add, Nat.mod_eq_of_lt hg, hshift]
  · rw [BitVec.toNat_add, Nat.mod_eq_of_lt hh, hshift]

/-- Every page of a range that fits is yielded, and no sum wraps. -/
theorem leaf_eq {levels : Nat} (h5 : levels ≤ 5) (hf : Fits m levels) {i : Nat}
    (hi : i < m.pageCount.toNat) :
    ∃ g h, m.leaf (BitVec.ofNat 64 i) = .returns (g, h, SecondStagePte.page h m.perms) ∧
      g.toNat = m.guestBase.toNat + 4096 * i ∧ h.toNat = m.hostBase.toNat + 4096 * i := by
  have hguest := hf.guest_fits
  have hhost := hf.host_fits
  have hpow : 2 ^ (12 + 9 * levels) ≤ 2 ^ 57 := Nat.pow_le_pow_right (by decide) (by omega)
  exact leaf_of_fits m (by omega) (by omega) (by omega)

theorem leaf_mem {i : Nat} (hi : i < m.pageCount.toNat) : m.leaf (BitVec.ofNat 64 i) ∈ m.leaves :=
  List.mem_map.mpr ⟨i, List.mem_range.mpr hi, rfl⟩

end Range

/-- **Mapping then walking is the identity.** Once every leaf of a range is in
place below the root, each byte of the range translates to the byte at the same
distance from the host base, on a 4 KiB page that is writable as asked. -/
theorem walk_mapped_range (levels : Nat) (h2 : 2 ≤ levels) (h5 : levels ≤ 5) (m : MapRange)
    (hf : Range.Fits m levels) (root : U64) (hr : Aligned root) (fetch : U64 → U64)
    (hmapped : ∀ g h pte, .returns (g, h, pte) ∈ m.leaves → Mapped fetch g pte levels root)
    (k : Nat) (hk : k < 4096 * m.pageCount.toNat) :
    ∃ r, walk .second levels root (m.guestBase + BitVec.ofNat 64 k) fetch = .returns (.ok r) ∧
      r.physical.toNat = m.hostBase.toNat + k ∧ r.level = 1 ∧ r.huge = false ∧
      r.perms.contains Perm.W = m.perms.contains Perm.W := by
  have hi : k / 4096 < m.pageCount.toNat := Nat.div_lt_of_lt_mul hk
  obtain ⟨g, h, hleaf, hg, hh⟩ := Range.leaf_eq m h5 hf hi
  have hmap := hmapped g h _ (hleaf ▸ Range.leaf_mem m hi)
  have hga := hf.guest_aligned
  have hha := hf.host_aligned
  have hguest := hf.guest_fits
  have hhost := hf.host_fits
  unfold Aligned at hga hha
  have hpow : 2 ^ (12 + 9 * levels) ≤ 2 ^ 57 := Nat.pow_le_pow_right (by decide) (by omega)
  have hv : (m.guestBase + BitVec.ofNat 64 k).toNat = m.guestBase.toNat + k := by
    rw [BitVec.toNat_add, BitVec.toNat_ofNat]
    omega
  have hfit : (m.guestBase + BitVec.ofNat 64 k) >>> (shiftOf levels + 9) = 0#64 := by
    have htop : shiftOf levels + 9 = 12 + 9 * levels := by
      unfold shiftOf
      omega
    apply BitVec.eq_of_toNat_eq
    rw [BitVec.toNat_ushiftRight, hv, Nat.shiftRight_eq_div_pow, htop]
    exact Nat.div_eq_of_lt (by omega)
  have hpage : (m.guestBase + BitVec.ofNat 64 k).toNat / 4096 = g.toNat / 4096 := by omega
  have haligned : Aligned h := by
    unfold Aligned
    omega
  obtain ⟨r, hwalk, hphys, hrest⟩ :=
    walk_of_mapped h5 hr hfit hpage haligned (by omega) hmap
  exact ⟨r, hwalk, by omega, hrest⟩

/-- The mapping request of the source's example. -/
def docRange : MapRange := ⟨0x1000#64, 0x9000#64, 0x3000#64, Perm.RW⟩

/-- A memory that holds it: four tables from 0x10000, three leaves in the last. -/
def docMemory (paddr : U64) : U64 :=
  if paddr = 0x10000#64 then 0x20007#64 else if paddr = 0x20000#64 then 0x30007#64
  else if paddr = 0x30000#64 then 0x40007#64 else if paddr = 0x40008#64 then 0x9003#64
  else if paddr = 0x40010#64 then 0xa003#64 else if paddr = 0x40018#64 then 0xb003#64 else 0#64

theorem docMemory_mapped (g h : U64) (pte : SecondStagePte)
    (hmem : .returns (g, h, pte) ∈ docRange.leaves) : Mapped docMemory g pte 4 0x10000#64 := by
  have hleaves : docRange.leaves = [.returns (0x1000#64, 0x9000#64, ⟨0x9003#64⟩),
      .returns (0x2000#64, 0xa000#64, ⟨0xa003#64⟩), .returns (0x3000#64, 0xb000#64, ⟨0xb003#64⟩)] := by
    decide
  simp only [hleaves, List.mem_cons, List.not_mem_nil, or_false, Exec.returns.injEq,
    Prod.mk.injEq] at hmem
  rcases hmem with ⟨rfl, _, rfl⟩ | ⟨rfl, _, rfl⟩ | ⟨rfl, _, rfl⟩
  all_goals
    exact ⟨0, 0x20000#64, rfl, rfl, by decide, rfl, 0, 0x30000#64, rfl, rfl, by decide, rfl, 0, 0x40000#64,
      rfl, rfl, by decide, rfl, _, rfl, rfl⟩

theorem walk_docRange :
    ∃ r, walk .second 4 0x10000#64 (docRange.guestBase + BitVec.ofNat 64 0x2abc) docMemory =
        .returns (.ok r) ∧
      r.physical.toNat = docRange.hostBase.toNat + 0x2abc ∧ r.level = 1 ∧ r.huge = false ∧
      r.perms.contains Perm.W = docRange.perms.contains Perm.W :=
  walk_mapped_range 4 (by decide) (by decide) docRange ⟨rfl, rfl, by decide, by decide⟩ 0x10000#64 rfl
    docMemory docMemory_mapped 0x2abc (by decide)

end Iommu.PageTables
