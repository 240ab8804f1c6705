import Iommu.PageTables.Chains
import Iommu.PageTables.Range

/-! The builders of v2 entries, and the walker.

An entry is a frame and flags, and the flags that the builders set are none that a
walker takes for something else. So a chain of `v2Table` entries down to a `v2Page`
walks to the page, at each of the three page sizes (`walk_of_v2`). The other crate
builds its leaf of the same format from the flags of another one (`leaf_difference`). -/
namespace Iommu.PageTables
open Lib Amd.PageTables

/-! ### Entries -/

/-- The flags of a page, without its frame. -/
def v2Flags (rw user : Bool) : U64 := v2Page 0#64 rw user

theorem v2Page_eq (paddr : U64) (rw user : Bool) : v2Page paddr rw user = (paddr &&& paMask) ||| v2Flags rw user := by
  have hzero : 0#64 &&& paMask = 0#64 := rfl
  cases rw <;> cases user <;> simp [v2Flags, v2Page, hzero, BitVec.or_assoc]

theorem links_v2Table : Links v2Table := by
  have hflags : v2Table = fun next => (next &&& paMask) ||| 0x27#64 := by
    funext next
    rw [v2Table, BitVec.or_assoc, BitVec.or_assoc]
    rfl
  rw [hflags]
  exact links_of_flags rfl rfl rfl

/-- A leaf of level `k`, which carries the page size bit above level 1. -/
def v2Leaf (k : Nat) (paddr : U64) (rw user : Bool) : U64 :=
  if k > 1 then v2Page paddr rw user ||| Perm.PS.bits else v2Page paddr rw user

def v2LeafFlags (huge rw user : Bool) : U64 := if huge then v2Flags rw user ||| Perm.PS.bits else v2Flags rw user

theorem v2Leaf_eq (k : Nat) (paddr : U64) (rw user : Bool) :
    v2Leaf k paddr rw user = (paddr &&& paMask) ||| v2LeafFlags (k > 1) rw user := by
  unfold v2Leaf v2LeafFlags
  by_cases hk : k > 1
  · simp [hk, v2Page_eq, BitVec.or_assoc]
  · simp [hk, v2Page_eq]

/-- What a walker sees of the flags. -/
theorem v2LeafFlags_bits (huge rw user : Bool) :
    v2LeafFlags huge rw user &&& paMask = 0#64 ∧ (v2LeafFlags huge rw user).getLsbD 0 = true ∧
      (v2LeafFlags huge rw user).getLsbD 7 = huge ∧ (v2LeafFlags huge rw user).getLsbD 1 = rw ∧
      (v2LeafFlags huge rw user).getLsbD 2 = user := by
  cases huge <;> cases rw <;> cases user <;> decide

theorem v2Leaf_frame (k : Nat) {paddr : U64} (rw user : Bool) (h : Aligned paddr) (h52 : paddr.toNat < 2 ^ 52) :
    v2Leaf k paddr rw user &&& paMask = paddr := by
  rw [v2Leaf_eq, frame_or (v2LeafFlags_bits _ rw user).1, h.and_paMask h52]

/-- A flag of the leaf is one of its flags. -/
theorem v2Leaf_flag (k : Nat) (paddr : U64) (rw user : Bool) {i : Nat} (hi : i < 12) :
    (v2Leaf k paddr rw user).getLsbD i = (v2LeafFlags (k > 1) rw user).getLsbD i := by
  rw [v2Leaf_eq, flag_or _ _ hi]

/-! ### Walks -/

/-- The frame of a page of any size is a frame of 4 KiB. -/
theorem aligned_of_level {x : U64} (k : Nat) (h : x.toNat % 2 ^ shiftOf k = 0) : Aligned x := by
  have hdvd : 2 ^ 12 ∣ 2 ^ shiftOf k := Nat.pow_dvd_pow 2 (Nat.le_add_right 12 _)
  exact Nat.mod_eq_zero_of_dvd (hdvd.trans (Nat.dvd_of_mod_eq_zero h))

/-- **What the builders build is what the walker finds**: an address chained to a page
translates to its byte of the page, with the permissions that the page was built with. -/
theorem walk_of_v2 (levels k : Nat) (h1 : 1 ≤ k) (hk : k ≤ min 3 levels) (h5 : levels ≤ 5) (iova : U64)
    (hfit : iova.toNat < 2 ^ (12 + 9 * levels)) (root : U64) (hr : Aligned root) (paddr : U64)
    (h52 : paddr.toNat < 2 ^ 52) (hp : paddr.toNat % 2 ^ shiftOf k = 0) (rw user : Bool) (fetch : U64 → U64)
    (hm : Chained fetch iova v2Table (v2Leaf k paddr rw user) k levels root) :
    ∃ r, walk .v2 levels root iova fetch = .returns (.ok r) ∧
      r.physical.toNat = paddr.toNat + iova.toNat % 2 ^ shiftOf k ∧ r.level = k ∧ r.huge = decide (k > 1) ∧
      r.perms.contains Perm.RW = rw ∧ r.perms.contains Perm.US = user := by
  have hshift : iova >>> (shiftOf levels + 9) = 0#64 := by
    rw [shift_eq_zero_iff, width_eq (by omega)]
    exact hfit
  obtain ⟨-, hpresent, hhuge, hrw, huser⟩ := v2LeafFlags_bits (k > 1) rw user
  have hflag := fun {i : Nat} (hi : i < 12) => v2Leaf_flag k paddr rw user hi
  have hsize : (v2Leaf k paddr rw user).getLsbD 7 = decide (k > 1) := (hflag (by decide)).trans hhuge
  have hlast : (v2Leaf k paddr rw user).getLsbD 7 = true ∨ k = 1 := by
    rw [hsize, decide_eq_true_iff]
    omega
  refine ⟨leafResult Perm.fromBitsRetain iova k (v2Leaf k paddr rw user), ?_, ?_, rfl, ?_, ?_, ?_⟩
  · exact hm.walk links_v2Table h1 h5 hr (fun _ => hshift) ((hflag (by decide)).trans hpresent) hlast
  · exact leafResult_physical _ iova (by omega) (v2Leaf_frame k rw user (aligned_of_level k hp) h52) hp
  · simp only [leafResult, hsize, decide_eq_true_eq, and_self]
  · exact (Word.has_bit _ (by decide)).trans ((hflag (by decide)).trans hrw)
  · exact (Word.has_bit _ (by decide)).trans ((hflag (by decide)).trans huser)

/-- Two tables, the root at 0x1000, and a page of 1 GiB. -/
def hugeMemory (paddr : U64) : U64 :=
  if paddr = 0x1008#64 then v2Table 0x2000#64
  else if paddr = 0x2018#64 then v2Leaf 3 0x40000000#64 true false else 0#64

theorem walk_hugeMemory :
    ∃ r, walk .v2 4 0x1000#64 0x80c0abcdef#64 hugeMemory = .returns (.ok r) ∧
      r.physical.toNat = (0x40000000#64).toNat + (0x80c0abcdef#64).toNat % 2 ^ shiftOf 3 ∧ r.level = 3 ∧
      r.huge = decide (3 > 1) ∧ r.perms.contains Perm.RW = true ∧ r.perms.contains Perm.US = false :=
  walk_of_v2 4 3 (by decide) (by decide) (by decide) 0x80c0abcdef#64 (by decide) 0x1000#64 rfl 0x40000000#64
    (by decide) rfl true false hugeMemory (.link 0x2000#64 rfl rfl (by decide) rfl (.leaf rfl rfl))

/-! ### The other crate's leaf -/

theorem firstStageLeaf_eq (paddr : U64) (user writable : Bool) : Intel.PageTables.firstStageLeaf paddr user writable =
    (paddr &&& paMask) ||| Intel.PageTables.firstStageLeaf 0#64 user writable := by
  have hzero : 0#64 &&& paMask = 0#64 := rfl
  cases user <;> cases writable <;> simp [Intel.PageTables.firstStageLeaf, hzero, BitVec.or_assoc]

/-- Entries of one frame differ where their flags do. -/
theorem xor_of_flags {f g : U64} (hf : f &&& paMask = 0#64) (hg : g &&& paMask = 0#64) (x : U64) :
    ((x &&& paMask) ||| f) ^^^ ((x &&& paMask) ||| g) = f ^^^ g := by
  apply BitVec.eq_of_getLsbD_eq
  intro i hi
  have hfi : (f.getLsbD i && paMask.getLsbD i) = false := by rw [← BitVec.getLsbD_and, hf, BitVec.getLsbD_zero]
  have hgi : (g.getLsbD i && paMask.getLsbD i) = false := by rw [← BitVec.getLsbD_and, hg, BitVec.getLsbD_zero]
  simp only [BitVec.getLsbD_xor, BitVec.getLsbD_or, BitVec.getLsbD_and]
  cases hm : paMask.getLsbD i
  · simp
  · simp only [hm, Bool.and_true] at hfi hgi
    simp [hfi, hgi]

/-- The two leaves of one page differ in the same bits: accessed and dirty are bits 5
and 6 of one and bits 8 and 9 of the other. -/
theorem leaf_difference (paddr : U64) (user writable : Bool) :
    Intel.PageTables.firstStageLeaf paddr user writable ^^^ v2Page paddr writable user = 0x360#64 := by
  rw [firstStageLeaf_eq, v2Page_eq, xor_of_flags]
  all_goals cases user <;> cases writable <;> decide

/-- **The two crates never build the same leaf.** -/
theorem leaves_differ (paddr : U64) (user writable : Bool) :
    Intel.PageTables.firstStageLeaf paddr user writable ≠ v2Page paddr writable user := by
  intro h
  have hdiff := leaf_difference paddr user writable
  rw [h, BitVec.xor_self] at hdiff
  exact absurd hdiff (by decide)

theorem leaf_differs_at : ¬∀ (paddr : U64) (user writable : Bool),
    Intel.PageTables.firstStageLeaf paddr user writable = v2Page paddr writable user := by
  intro h
  have hsame := h 0x12345000#64 true true
  exact absurd hsame (by decide)

end Iommu.PageTables
