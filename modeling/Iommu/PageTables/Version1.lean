import Iommu.PageTables.Builders

/-! The builder of v1 leaves, and the walker.

A v1 leaf has a bit for each right, and the walker keeps every bit of a leaf. So the
rights are read back as they were given, whatever links lead to it, and from any address:
a v1 walk has no width to check. The bit of the right to write is the one that v2 has for
accessed, so the walker reports one with the other (`walk_of_v1`). -/
namespace Iommu.PageTables
open Lib Amd.PageTables

/-- The flags of a v1 leaf, with the page size bit above level 1. -/
def v1LeafFlags (huge read write : Bool) : U64 :=
  if huge then v1Page 0#64 read write ||| Perm.PS.bits else v1Page 0#64 read write

/-- A v1 leaf of level `k`. -/
def v1Leaf (k : Nat) (paddr : U64) (read write : Bool) : U64 :=
  if k > 1 then v1Page paddr read write ||| Perm.PS.bits else v1Page paddr read write

theorem v1Page_eq (paddr : U64) (read write : Bool) :
    v1Page paddr read write = (paddr &&& paMask) ||| v1Page 0#64 read write := by
  have hzero : 0#64 &&& paMask = 0#64 := rfl
  cases read <;> cases write <;> simp [v1Page, hzero, BitVec.or_assoc]

theorem v1Leaf_eq (k : Nat) (paddr : U64) (read write : Bool) :
    v1Leaf k paddr read write = (paddr &&& paMask) ||| v1LeafFlags (k > 1) read write := by
  unfold v1Leaf v1LeafFlags
  by_cases hk : k > 1
  · rw [if_pos hk, if_pos (decide_eq_true hk), v1Page_eq, BitVec.or_assoc]
  · rw [if_neg hk, if_neg (by simpa using hk), v1Page_eq]

theorem v1LeafFlags_bits (huge read write : Bool) :
    v1LeafFlags huge read write &&& paMask = 0#64 ∧ (v1LeafFlags huge read write).getLsbD 0 = true ∧
      (v1LeafFlags huge read write).getLsbD 7 = huge ∧ (v1LeafFlags huge read write).getLsbD 4 = read ∧
      (v1LeafFlags huge read write).getLsbD 5 = write := by
  cases huge <;> cases read <;> cases write <;> decide

theorem v1Leaf_flag (k : Nat) (paddr : U64) (read write : Bool) {i : Nat} (hi : i < 12) :
    (v1Leaf k paddr read write).getLsbD i = (v1LeafFlags (k > 1) read write).getLsbD i := by
  rw [v1Leaf_eq, flag_or _ _ hi]

/-- **A v1 leaf is found with its rights**, from every address, at every page size and
through any links. -/
theorem walk_of_v1 (levels k : Nat) (h1 : 1 ≤ k) (hk : k ≤ levels) (h5 : levels ≤ 5) (iova root : U64)
    (hr : Aligned root) (paddr : U64) (h52 : paddr.toNat < 2 ^ 52) (hp : paddr.toNat % 2 ^ shiftOf k = 0)
    (read write : Bool) (link : U64 → U64) (hlink : Links link) (fetch : U64 → U64)
    (hm : Chained fetch iova link (v1Leaf k paddr read write) k levels root) :
    ∃ r, walk .v1 levels root iova fetch = .returns (.ok r) ∧
      r.physical.toNat = paddr.toNat + iova.toNat % 2 ^ shiftOf k ∧ r.level = k ∧ r.huge = decide (k > 1) ∧
      r.perms.contains Perm.IR = read ∧ r.perms.contains Perm.IW = write ∧
      r.perms.contains Perm.ACCESSED = write := by
  obtain ⟨hframe, hpresent, hhuge, hread, hwrite⟩ := v1LeafFlags_bits (k > 1) read write
  have hflag := fun {i : Nat} (hi : i < 12) => v1Leaf_flag k paddr read write hi
  have hsize : (v1Leaf k paddr read write).getLsbD 7 = decide (k > 1) := (hflag (by decide)).trans hhuge
  have hlast : (v1Leaf k paddr read write).getLsbD 7 = true ∨ k = 1 := by
    rw [hsize, decide_eq_true_iff]
    omega
  have hleaf : v1Leaf k paddr read write &&& paMask = paddr := by
    rw [v1Leaf_eq, frame_or hframe, (aligned_of_level k hp).and_paMask h52]
  refine ⟨leafResult Perm.fromBitsRetain iova k (v1Leaf k paddr read write), ?_, ?_, rfl, ?_, ?_, ?_, ?_⟩
  · exact hm.walk hlink h1 h5 hr (fun h => by cases h) ((hflag (by decide)).trans hpresent) hlast
  · exact leafResult_physical _ iova (by omega) hleaf hp
  · simp only [leafResult, hsize, decide_eq_true_eq, and_self]
  · exact (Word.has_bit _ (by decide)).trans ((hflag (by decide)).trans hread)
  · exact (Word.has_bit _ (by decide)).trans ((hflag (by decide)).trans hwrite)
  · exact (Word.has_bit _ (by decide)).trans ((hflag (by decide)).trans hwrite)

/-- The page of 2 MiB of the source's test, in the root, from an address past its width. -/
def v1Memory (paddr : U64) : U64 := if paddr = 0x1000#64 then v1Leaf 2 0x100000000#64 true false else 0#64

theorem walk_v1Memory :
    ∃ r, walk .v1 2 0x1000#64 0xff00000000123456#64 v1Memory = .returns (.ok r) ∧
      r.physical.toNat = (0x100000000#64).toNat + (0xff00000000123456#64).toNat % 2 ^ shiftOf 2 ∧ r.level = 2 ∧
      r.huge = decide (2 > 1) ∧ r.perms.contains Perm.IR = true ∧ r.perms.contains Perm.IW = false ∧
      r.perms.contains Perm.ACCESSED = false :=
  walk_of_v1 2 2 (by decide) (by decide) (by decide) 0xff00000000123456#64 0x1000#64 rfl 0x100000000#64 (by decide) rfl
    true false v2Table links_v2Table v1Memory (.leaf rfl rfl)

end Iommu.PageTables
