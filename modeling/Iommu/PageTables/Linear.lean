import Iommu.PageTables.Laws
import Iommu.Lib.Positional

/-! Translation inside one page.

Every address of a page descends to the same leaf, and the leaf's frame is joined
to the offset by an OR under the 4 KiB frame mask, whatever the level. That is
linear exactly when the leaf keeps the bits of its frame below its own page size
clear (`FrameClear`); a frame bit set there swallows the offset bit above it. -/
namespace Iommu.PageTables
open Lib

/-! ### One page, one path -/

/-- The two addresses differ only in the low `LEVEL_SHIFT[k - 1]` bits. -/
def SamePage (k : Nat) (v v' : U64) : Prop := v' >>> shiftOf k = v >>> shiftOf k

theorem SamePage.div {k : Nat} {v v' : U64} (h : SamePage k v v') {n : Nat} (hn : shiftOf k ≤ n) :
    v'.toNat / 2 ^ n = v.toNat / 2 ^ n := by
  have hk : v'.toNat / 2 ^ shiftOf k = v.toNat / 2 ^ shiftOf k := by
    have := congrArg BitVec.toNat h
    simpa only [BitVec.toNat_ushiftRight, Nat.shiftRight_eq_div_pow] using this
  exact Positional.div_congr hk hn

theorem SamePage.shift {k : Nat} {v v' : U64} (h : SamePage k v v') {n : Nat} (hn : shiftOf k ≤ n) :
    v' >>> n = v >>> n := by
  apply BitVec.eq_of_toNat_eq
  simp only [BitVec.toNat_ushiftRight, Nat.shiftRight_eq_div_pow, h.div hn]

theorem SamePage.slot {k : Nat} {v v' : U64} (h : SamePage k v v') {l : Nat} (hl : k ≤ l)
    (h5 : l ≤ 5) : slotOf v' l = slotOf v l := by
  apply BitVec.eq_of_toNat_eq
  rw [toNat_slotOf v' h5, toNat_slotOf v h5, h.div (shiftOf_mono hl)]

/-- The addresses of a page have one path down to its leaf. -/
theorem SamePage.leaf {k : Nat} {v v' : U64} (h : SamePage k v v') {fetch : U64 → U64} {levels : Nat}
    (h5 : levels ≤ 5) {root : U64} (hleaf : LeafAt fetch v levels root k) :
    LeafAt fetch v' levels root k ∧
      pathEntry fetch v' levels root k = pathEntry fetch v levels root k :=
  (tree v fetch).endsAt_congr (tree v' fetch) rfl rfl rfl levels root k
    (fun l t hl hl' => by simp only [tree_read, entryAddr, h.slot hl (by omega)]) hleaf

/-! ### Frame and offset -/

/-- The frame of a leaf at level `k` has no bit below the page size. -/
def FrameClear (k : Nat) (e : U64) : Prop := ∀ i, 12 ≤ i → i < shiftOf k → e.getLsbD i = false

theorem FrameClear.mod {k : Nat} {e : U64} (h5 : k ≤ 5) (h : FrameClear k e) :
    (e &&& paMask).toNat % 2 ^ shiftOf k = 0 := by
  have hs := shiftOf_le h5
  have hzero : (e &&& paMask) &&& Word.mask 64 0 (shiftOf k) = 0#64 := by
    apply BitVec.eq_of_getLsbD_eq
    intro i hi
    rw [BitVec.getLsbD_and, BitVec.getLsbD_and, paMask_eq, Word.getLsbD_mask, Word.getLsbD_mask]
    by_cases hlow : 12 ≤ i ∧ i < shiftOf k
    · simp [h i hlow.1 hlow.2]
    · by_cases h12 : 12 ≤ i
      · have : ¬ i < shiftOf k := fun hlt => hlow ⟨h12, hlt⟩
        simp [this]
      · simp [h12]
  rw [← Word.toNat_and_mask_zero _ (by omega), hzero]
  rfl

/-- With a clear frame the OR is a sum. -/
theorem FrameClear.physical {k : Nat} {e : U64} (h5 : k ≤ 5) (h : FrameClear k e) (v : U64) :
    ((e &&& paMask) ||| offsetOf v k).toNat =
      (e &&& paMask).toNat + v.toNat % 2 ^ shiftOf k :=
  toNat_or_offsetOf h5 (h.mod h5) v

/-- Flipping an offset bit under a set frame bit changes nothing. -/
theorem offset_swallowed {k : Nat} {e : U64} (h5 : k ≤ 5) {i : Nat} (h12 : 12 ≤ i) (hi : i < shiftOf k)
    (he : e.getLsbD i = true) (v : U64) :
    (e &&& paMask) ||| offsetOf (v ^^^ BitVec.twoPow 64 i) k = (e &&& paMask) ||| offsetOf v k := by
  have hs := shiftOf_le h5
  apply BitVec.eq_of_getLsbD_eq
  intro j hj
  simp only [offsetOf, Word.one_shift_sub_one (show shiftOf k < 64 by omega), paMask_eq,
    BitVec.getLsbD_or, BitVec.getLsbD_and, BitVec.getLsbD_xor, BitVec.getLsbD_twoPow, Word.getLsbD_mask]
  by_cases hij : i = j
  · have h52 : j < 52 := by omega
    rw [← hij] at hj h52 ⊢
    simp only [he, hj, h12, h52, Nat.reduceAdd, decide_true, Bool.and_true, Bool.true_or]
  · simp [hij]

theorem samePage_flip {k i : Nat} (h5 : k ≤ 5) (hi : i < shiftOf k) (v : U64) :
    SamePage k v (v ^^^ BitVec.twoPow 64 i) := by
  have hs := shiftOf_le h5
  apply BitVec.eq_of_getLsbD_eq
  intro j hj
  have hne : ¬ i = shiftOf k + j := by omega
  simp [hne]

/-! ### Linearity -/

/-- If `v` translates, every address of its page translates alike, at the same
distance from it. -/
def LinearAt {P : Type} (walk : U64 → Exec (Except WalkError (WalkResult P))) (v : U64) : Prop :=
  ∀ r, walk v = .returns (.ok r) → ∀ v', SamePage r.level v v' →
    ∃ r', walk v' = .returns (.ok r') ∧ r'.level = r.level ∧ r'.perms = r.perms ∧ r'.huge = r.huge ∧
      (r'.physical.toNat : Int) - r.physical.toNat = v'.toNat - v.toNat

/-- The leaf that the path of `v` ends on, if it does, has a clear frame. -/
def LeafClear (fetch : U64 → U64) (v : U64) (levels : Nat) (root : U64) : Prop :=
  ∀ k, LeafAt fetch v levels root k → FrameClear k (pathEntry fetch v levels root k)

section Walk
variable {P : Type} (permsOf : U64 → P) (fetch : U64 → U64) (v : U64) (levels : Nat) (root : U64)

/-- The walk past its width check, on success. -/
theorem walkWith_leaf_iff {widthChecked : Bool} (h : 1 ≤ levels) (h5 : levels ≤ 5) (hr : Aligned root)
    (hw : widthChecked = true → v >>> (shiftOf levels + 9) = 0#64) (r : WalkResult P) :
    walkWith permsOf v fetch widthChecked levels root = .returns (.ok r) ↔
      LeafAt fetch v levels root r.level ∧
        r = leafResult permsOf v r.level (pathEntry fetch v levels root r.level) := by
  rw [walkWith_eq permsOf v fetch h h5 root hr hw, report_leaf_iff]

theorem linear_of_clear {widthChecked : Bool} (h : 1 ≤ levels) (h5 : levels ≤ 5) (hr : Aligned root)
    (hw : widthChecked = true → v >>> (shiftOf levels + 9) = 0#64)
    (hclear : LeafClear fetch v levels root) :
    LinearAt (fun v => walkWith permsOf v fetch widthChecked levels root) v := by
  intro r hok v' hpage
  obtain ⟨hleaf, hres⟩ := (walkWith_leaf_iff permsOf fetch v levels root h h5 hr hw r).mp hok
  have hk5 : r.level ≤ 5 := Nat.le_trans hleaf.2.1 h5
  have hw' : widthChecked = true → v' >>> (shiftOf levels + 9) = 0#64 := fun hc => by
    rw [hpage.shift (Nat.le_add_right_of_le (shiftOf_mono hleaf.2.1))]
    exact hw hc
  obtain ⟨hleaf', hentry⟩ := hpage.leaf h5 hleaf
  have hok' := (walkWith_leaf_iff permsOf fetch v' levels root h h5 hr hw'
    (leafResult permsOf v' r.level (pathEntry fetch v' levels root r.level))).mpr ⟨hleaf', rfl⟩
  have hframe := hclear r.level hleaf
  have hphys := hframe.physical hk5 v
  have hphys' := hframe.physical hk5 v'
  have hdiv := hpage.div (Nat.le_refl (shiftOf r.level))
  have hv := Nat.div_add_mod v.toNat (2 ^ shiftOf r.level)
  have hv' := Nat.div_add_mod v'.toNat (2 ^ shiftOf r.level)
  rw [hdiv] at hv'
  refine ⟨_, hok', rfl, ?_, ?_, ?_⟩
  · rw [hres]
    simp only [leafResult, hentry]
  · rw [hres]
    simp only [leafResult, hentry]
  · rw [hres]
    simp only [leafResult, hentry, hphys, hphys']
    omega

theorem clear_of_linear {widthChecked : Bool} (h : 1 ≤ levels) (h5 : levels ≤ 5) (hr : Aligned root)
    (hw : widthChecked = true → v >>> (shiftOf levels + 9) = 0#64)
    (hlin : LinearAt (fun v => walkWith permsOf v fetch widthChecked levels root) v) :
    LeafClear fetch v levels root := by
  intro k hleaf i h12 hi
  have hk5 : k ≤ 5 := Nat.le_trans hleaf.2.1 h5
  have hs := shiftOf_le hk5
  cases he : (pathEntry fetch v levels root k).getLsbD i
  · rfl
  · exfalso
    -- the two ends of the flipped bit translate to one physical address
    have hok := (walkWith_leaf_iff permsOf fetch v levels root h h5 hr hw
      (leafResult permsOf v k (pathEntry fetch v levels root k))).mpr ⟨hleaf, rfl⟩
    have hpage := samePage_flip hk5 hi v
    obtain ⟨r', hok', hlevel, _, _, hdiff⟩ := hlin _ hok _ hpage
    have hw' : widthChecked = true → (v ^^^ BitVec.twoPow 64 i) >>> (shiftOf levels + 9) = 0#64 :=
      fun hc => by
        rw [hpage.shift (Nat.le_add_right_of_le (shiftOf_mono hleaf.2.1))]
        exact hw hc
    obtain ⟨_, hres'⟩ := (walkWith_leaf_iff permsOf fetch _ levels root h h5 hr hw' r').mp hok'
    have hentry := (hpage.leaf h5 hleaf).2
    have hsame := offset_swallowed hk5 h12 hi he v
    rw [hres', hlevel] at hdiff
    simp only [leafResult, hentry, hsame] at hdiff
    have hv : v ^^^ BitVec.twoPow 64 i = v := BitVec.eq_of_toNat_eq (by omega)
    have hbit := congrArg (fun x : U64 => x.getLsbD i) hv
    have hi64 : i < 64 := by omega
    simp [hi64] at hbit

/-- A walk that fails its width check translates nothing, and is linear for that reason. -/
theorem walkWith_linear_iff (widthChecked : Bool) (h : 1 ≤ levels) (h5 : levels ≤ 5)
    (hr : Aligned root) :
    LinearAt (fun v => walkWith permsOf v fetch widthChecked levels root) v ↔
      ((widthChecked = true → v >>> (shiftOf levels + 9) = 0#64) → LeafClear fetch v levels root) := by
  constructor
  · intro hlin hw
    exact clear_of_linear permsOf fetch v levels root h h5 hr hw hlin
  · intro hclear
    by_cases hw : widthChecked = true → v >>> (shiftOf levels + 9) = 0#64
    · exact linear_of_clear permsOf fetch v levels root h h5 hr hw (hclear hw)
    · obtain ⟨hc, hne⟩ := Classical.not_imp.mp hw
      intro r hok
      simp only [hc, walkWith_too_large permsOf v fetch h h5 root hne, Exec.returns.injEq,
        reduceCtorEq] at hok

end Walk

/-- **When translation is linear inside a page**: exactly when the leaf that an
accepted address ends on keeps its frame bits below its page size clear. -/
theorem walk_linear_iff (fetch : U64 → U64) (levels : Nat) (h : 1 ≤ levels) (h5 : levels ≤ 5)
    (root : U64) (hr : Aligned root) (v : U64) :
    (∀ stage, LinearAt (fun v => Intel.PageTables.walk stage levels root v fetch) v ↔
      ((stage = .second → v >>> (shiftOf levels + 9) = 0#64) → LeafClear fetch v levels root)) ∧
    (∀ format, LinearAt (fun v => Amd.PageTables.walk format levels root v fetch) v ↔
      ((format = .v2 → v >>> (shiftOf levels + 9) = 0#64) → LeafClear fetch v levels root)) := by
  refine ⟨fun stage => ?_, fun format => ?_⟩
  · have := walkWith_linear_iff Intel.PageTables.Perm.fromBitsTruncate fetch v levels root
      (stage == .second) h h5 hr
    rwa [beq_iff_eq] at this
  · have := walkWith_linear_iff Amd.PageTables.Perm.fromBitsRetain fetch v levels root
      (format == .v2) h h5 hr
    rwa [beq_iff_eq] at this

theorem docTree_linear_iff :
    (∀ stage, LinearAt (fun v => Intel.PageTables.walk stage 4 0x1000#64 v docTree) 0x123#64 ↔
      ((stage = .second → 0x123#64 >>> (shiftOf 4 + 9) = 0#64) →
        LeafClear docTree 0x123#64 4 0x1000#64)) ∧
    (∀ format, LinearAt (fun v => Amd.PageTables.walk format 4 0x1000#64 v docTree) 0x123#64 ↔
      ((format = .v2 → 0x123#64 >>> (shiftOf 4 + 9) = 0#64) →
        LeafClear docTree 0x123#64 4 0x1000#64)) :=
  walk_linear_iff docTree 4 (by decide) (by decide) 0x1000#64 rfl 0x123#64

/-- A tree whose 2 MiB leaf has bit 12 set, which in the AMD64 format of such a
leaf is the PAT flag and no part of the frame. -/
def patTree (paddr : U64) : U64 :=
  if paddr = 0x1000#64 then 0x2003#64 else if paddr = 0x2000#64 then 0x3003#64
  else if paddr = 0x3000#64 then 0x201083#64 else 0#64

/-- Offsets 0 and 0x1000 of that page translate to one physical address. -/
theorem patTree_not_linear :
    ¬LinearAt (fun v => Intel.PageTables.walk .second 4 0x1000#64 v patTree) 0#64 ∧
      ¬LinearAt (fun v => Amd.PageTables.walk .v2 4 0x1000#64 v patTree) 0#64 := by
  constructor
  · intro hlin
    obtain ⟨r', hok', _, _, _, hdiff⟩ := hlin ⟨0x201000#64, 2, ⟨0x83#64⟩, true⟩ rfl 0x1000#64 rfl
    have hwalk : Intel.PageTables.walk .second 4 0x1000#64 0x1000#64 patTree =
        .returns (.ok ⟨0x201000#64, 2, ⟨0x83#64⟩, true⟩) := rfl
    obtain rfl := Except.ok.inj (Exec.returns.inj (hwalk.symm.trans hok'))
    exact absurd hdiff (by decide)
  · intro hlin
    obtain ⟨r', hok', _, _, _, hdiff⟩ := hlin ⟨0x201000#64, 2, ⟨0x201083#64⟩, true⟩ rfl 0x1000#64 rfl
    have hwalk : Amd.PageTables.walk .v2 4 0x1000#64 0x1000#64 patTree =
        .returns (.ok ⟨0x201000#64, 2, ⟨0x201083#64⟩, true⟩) := rfl
    obtain rfl := Except.ok.inj (Exec.returns.inj (hwalk.symm.trans hok'))
    exact absurd hdiff (by decide)

end Iommu.PageTables
