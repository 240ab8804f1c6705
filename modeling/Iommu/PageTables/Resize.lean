import Iommu.PageTables.Isolation

/-! Pages cut and joined.

A page of a level holds the same bytes as 512 pages of the level below, each built for
its own part of the frame with the same rights. So the caller may link a table of them
in place of the page, or put the page in place of the table: no byte of any domain moves
and no right changes (`resized_walk`). -/
namespace Iommu.PageTables
open Lib

section Resize
variable {D Q P O : Type} {S : Domains D} (B : Builders Q P) (obs : P → O)

/-- The frame of the `i`th page of a level within a frame. -/
def partOf (paddr : U64) (l i : Nat) : U64 := paddr + BitVec.ofNat 64 (i * 2 ^ shiftOf l)

/-- The entry of the page that an address is on when its frame is cut. -/
def partLeaf (l : Nat) (paddr : U64) (rights : Q) (v : U64) : U64 :=
  B.leaf l (partOf paddr l (slotOf v l).toNat) rights

/-- What is seen of a byte through a walk: where it is, and what `obs` makes of its permissions. -/
def byteOf : Exec (Except WalkError (WalkResult P)) → Exec (Except WalkError (U64 × O))
  | .panics e => .panics e
  | .returns (.error e) => .returns (.error e)
  | .returns (.ok r) => .returns (.ok (r.physical, obs r.perms))

/-- A page is 512 of the level below. -/
theorem size_succ {l : Nat} (h1 : 1 ≤ l) : 2 ^ shiftOf (l + 1) = 2 ^ shiftOf l * 512 := by
  have hshift : shiftOf (l + 1) = shiftOf l + 9 := by
    unfold shiftOf
    omega
  rw [hshift, Nat.pow_add]

/-- A frame that is cut stays within the address bits, and its parts are frames. -/
theorem toNat_partOf {paddr : U64} {l i : Nat} (h5 : l + 1 ≤ 5) (h1 : 1 ≤ l) (hi : i < 512)
    (hp : paddr.toNat % 2 ^ shiftOf (l + 1) = 0) (h52 : paddr.toNat < 2 ^ 52) :
    (partOf paddr l i).toNat = paddr.toNat + i * 2 ^ shiftOf l ∧ (partOf paddr l i).toNat < 2 ^ 52 ∧
      (partOf paddr l i).toNat % 2 ^ shiftOf l = 0 := by
  have hle : shiftOf (l + 1) ≤ 48 := shiftOf_le h5
  have hsize := size_succ h1
  obtain ⟨m, hm⟩ := Nat.dvd_of_mod_eq_zero hp
  have hpart : i * 2 ^ shiftOf l < 2 ^ shiftOf (l + 1) := by
    rw [hsize, Nat.mul_comm]
    exact Nat.mul_lt_mul_of_pos_left hi (Nat.two_pow_pos _)
  have hall : 2 ^ 52 = 2 ^ shiftOf (l + 1) * 2 ^ (52 - shiftOf (l + 1)) := by
    rw [← Nat.pow_add]
    congr 1
    omega
  have hroom : m + 1 ≤ 2 ^ (52 - shiftOf (l + 1)) := by
    rw [hm, hall] at h52
    exact Nat.lt_of_mul_lt_mul_left h52
  have hfits : paddr.toNat + i * 2 ^ shiftOf l < 2 ^ 52 := calc
    paddr.toNat + i * 2 ^ shiftOf l < 2 ^ shiftOf (l + 1) * m + 2 ^ shiftOf (l + 1) := by
      rw [hm]
      exact Nat.add_lt_add_left hpart _
    _ = 2 ^ shiftOf (l + 1) * (m + 1) := (Nat.mul_succ _ _).symm
    _ ≤ 2 ^ 52 := by
      rw [hall]
      exact Nat.mul_le_mul_left _ hroom
  have hnat : (partOf paddr l i).toNat = paddr.toNat + i * 2 ^ shiftOf l := by
    rw [partOf, BitVec.toNat_add, BitVec.toNat_ofNat]
    omega
  refine ⟨hnat, hnat ▸ hfits, ?_⟩
  rw [hnat, hm, hsize, Nat.mul_assoc, Nat.mul_comm i, ← Nat.mul_add, Nat.mul_mod_right]

/-- A byte of the page is the same byte of its part. -/
theorem partLeaf_physical {paddr : U64} {l : Nat} (h5 : l + 1 ≤ 5) (h1 : 1 ≤ l)
    (hp : paddr.toNat % 2 ^ shiftOf (l + 1) = 0) (h52 : paddr.toNat < 2 ^ 52) (rights : Q) (v : U64) :
    (leafResult B.permsOf v l (partLeaf B l paddr rights v)).physical =
      (leafResult B.permsOf v (l + 1) (B.leaf (l + 1) paddr rights)).physical := by
  have hslot := slotOf_lt v (Nat.le_of_succ_le h5)
  obtain ⟨hnat, hpart52, hpart⟩ := toNat_partOf h5 h1 hslot hp h52
  have hframe : partLeaf B l paddr rights v &&& paMask = partOf paddr l (slotOf v l).toNat := by
    rw [partLeaf, B.leaf_frame, (aligned_of_level l hpart).and_paMask hpart52]
  have hframe' : B.leaf (l + 1) paddr rights &&& paMask = paddr := by
    rw [B.leaf_frame, (aligned_of_level (l + 1) hp).and_paMask h52]
  apply BitVec.eq_of_toNat_eq
  rw [leafResult_physical _ v (Nat.le_of_succ_le h5) hframe hpart, leafResult_physical _ v h5 hframe' hp, hnat,
    toNat_slotOf v (Nat.le_of_succ_le h5), size_succ h1, Nat.mod_mul, Nat.mul_comm (_ % 512)]
  omega

/-- The rights are seen in a leaf of any level. -/
def SeesRights : Prop := ∀ l l' paddr paddr' rights,
  obs (B.permsOf (B.leaf l paddr rights)) = obs (B.permsOf (B.leaf l' paddr' rights))

variable {B obs}

theorem partLeaf_byte (hobs : SeesRights B obs) {paddr : U64} {l : Nat} (h5 : l + 1 ≤ 5) (h1 : 1 ≤ l)
    (hp : paddr.toNat % 2 ^ shiftOf (l + 1) = 0) (h52 : paddr.toNat < 2 ^ 52) (rights : Q) (v : U64) :
    byteOf obs (report B.permsOf v (some (.ends l (partLeaf B l paddr rights v)))) =
      byteOf obs (report B.permsOf v (some (.ends (l + 1) (B.leaf (l + 1) paddr rights)))) := by
  have hphysical := partLeaf_physical B h5 h1 hp h52 rights v
  have hrights := hobs l (l + 1) (partOf paddr l (slotOf v l).toNat) paddr rights
  simp only [report, byteOf, hphysical]
  exact congrArg (fun o => Exec.returns (Except.ok (_, o))) hrights

variable (B) in
/-- The update puts pages of one size in place of pages of another, byte for byte. -/
def Update.Resizes (A : Space S) : Update S Q → Prop
  | map k l paddr rights => ∃ j, l = j + 1 ∧ 1 ≤ j ∧
      ∀ k', Space.OnPage l k k' → A k' = .ends j (partLeaf B j paddr rights k'.addr)
  | link k l _ entries => ∃ paddr rights, paddr.toNat % 2 ^ shiftOf (l + 1) = 0 ∧ paddr.toNat < 2 ^ 52 ∧
      (∀ i < 512, entries i = B.leaf l (partOf paddr l i) rights) ∧
      ∀ k', Space.OnPage (l + 1) k k' → A k' = .ends (l + 1) (B.leaf (l + 1) paddr rights)
  | other _ _ => True
  | unmap _ _ => False
  | mark _ _ _ => False

variable [DecidableEq D]

/-- It moves no byte. -/
theorem view_resizes (hobs : SeesRights B obs) {A : Space S} {mem : U64 → U64} {u : Update S Q} (h : u.Allowed mem)
    (hu : u.Resizes B A) (k' : Iova S) :
    byteOf obs (report B.permsOf k'.addr (some (u.view B A k'))) =
      byteOf obs (report B.permsOf k'.addr (some (A k'))) := by
  by_cases hcovers : u.Covers k'
  · cases u with
    | map k l paddr rights =>
      obtain ⟨j, rfl, hj, hcut⟩ := hu
      obtain ⟨hreach, hp, h52⟩ := h
      have h5 : j + 1 ≤ 5 := Nat.le_trans hreach.2.1 (S.levels_le _)
      have hview : (Update.map k (j + 1) paddr rights).view B A k' = .ends (j + 1) (B.leaf (j + 1) paddr rights) :=
        if_pos hcovers
      rw [hview, hcut k' hcovers, partLeaf_byte hobs h5 hj hp h52]
    | link k l next entries =>
      obtain ⟨paddr, rights, hp, h52, hentries, hwhole⟩ := hu
      obtain ⟨h1, hreach, -⟩ := h
      have h5 : l + 1 ≤ 5 := Nat.le_trans hreach.2.1 (S.levels_le _)
      have hview : (Update.link k l next entries).view B A k' = .ends l (partLeaf B l paddr rights k'.addr) := by
        refine (if_pos hcovers).trans ?_
        rw [hentries _ (slotOf_lt _ (Nat.le_of_succ_le h5)), partLeaf, stopAt_leaf]
      rw [hview, hwhole k' hcovers, partLeaf_byte hobs h5 h1 hp h52]
    | other => rfl
    | unmap => exact hu.elim
    | mark => exact hu.elim
  · rw [view_of_not_covers B hcovers]

variable (B) in
/-- A run that only cuts and joins pages. -/
def Resizing (A : Space S) : List (Update S Q) → Prop
  | [] => True
  | u :: us => u.Resizes B A ∧ Resizing (u.view B A) us

theorem spaceAfter_resizes (hobs : SeesRights B obs) {A : Space S} {mem : U64 → U64} {us : List (Update S Q)}
    (hrun : AllowedRun B mem us) (hus : Resizing B A us) (k : Iova S) :
    byteOf obs (report B.permsOf k.addr (some (spaceAfter B A us k))) =
      byteOf obs (report B.permsOf k.addr (some (A k))) := by
  induction us generalizing mem A with
  | nil => rfl
  | cons u us ih => exact (ih hrun.2 hus.2).trans (view_resizes hobs hrun.1 hus.1 k)

theorem walk_resized (hobs : SeesRights B obs) {A : Space S} {mem : U64 → U64} (hR : Refines mem A)
    {us : List (Update S Q)} (hrun : AllowedRun B mem us) (hus : Resizing B A us) (widthChecked : Bool) (k : Iova S) :
    byteOf obs (walkWith B.permsOf k.addr (run B mem us) widthChecked (S.levels k.domain) (S.root k.domain)) =
      byteOf obs (walkWith B.permsOf k.addr mem widthChecked (S.levels k.domain) (S.root k.domain)) := by
  rw [((hR.run B hrun).walk B.permsOf widthChecked k).result, (hR.walk B.permsOf widthChecked k).result]
  exact spaceAfter_resizes hobs hrun hus k

end Resize

/-! ### The two crates -/

theorem secondStage_seesRights : SeesRights secondStage Intel.PageTables.Perm.rxw := by
  have hbuilds : ∀ l paddr perms, Builds ⟨secondStageLeaf l paddr perms⟩ perms := fun l paddr perms => by
    unfold secondStageLeaf
    split
    · exact hugePage_builds paddr perms
    · exact page_builds paddr perms
  intro l l' paddr paddr' perms
  have h := hbuilds l paddr perms
  have h' := hbuilds l' paddr' perms
  have hkept : ∀ e : U64, ∀ i < 3, (Intel.PageTables.Perm.fromBitsTruncate e).bits.getLsbD i = e.getLsbD i :=
    fun e i hi => by
      have hall : ∀ i < 3, Intel.PageTables.Perm.all.bits.getLsbD i = true := by decide
      rw [Intel.PageTables.Perm.fromBitsTruncate, BitVec.getLsbD_and, hall i hi, Bool.and_true]
  refine (rxw_eq_iff _ _).mpr fun i hi => ?_
  show (Intel.PageTables.Perm.fromBitsTruncate (secondStageLeaf l paddr perms)).bits.getLsbD i =
    (Intel.PageTables.Perm.fromBitsTruncate (secondStageLeaf l' paddr' perms)).bits.getLsbD i
  rw [hkept _ i hi, hkept _ i hi]
  have hbit : i = 0 ∨ i = 1 ∨ i = 2 := by omega
  rcases hbit with rfl | rfl | rfl
  · exact h.present.trans h'.present.symm
  · exact h.writable.trans h'.writable.symm
  · exact h.not_executable.trans h'.not_executable.symm

/-- The rights of an AMD64 leaf: to write, and to user mode. -/
def v2Rights (p : Amd.PageTables.Perm) : Bool × Bool :=
  (p.contains Amd.PageTables.Perm.RW, p.contains Amd.PageTables.Perm.US)

theorem version2_seesRights : SeesRights version2 v2Rights := by
  have hrights : ∀ l paddr rights, v2Rights (version2.permsOf (version2.leaf l paddr rights)) = rights :=
    fun l paddr rights => by
      have hbits := v2LeafFlags_bits (l > 1) rights.1 rights.2
      refine Prod.ext ?_ ?_
      · exact (Word.has_bit _ (by decide)).trans
          ((v2Leaf_flag l paddr rights.1 rights.2 (by decide)).trans hbits.2.2.2.1)
      · exact (Word.has_bit _ (by decide)).trans
          ((v2Leaf_flag l paddr rights.1 rights.2 (by decide)).trans hbits.2.2.2.2)
  intro l l' paddr paddr' rights
  rw [hrights, hrights]

/-- **Cutting and joining pages moves nothing**: a run that only puts pages of one size in
place of pages of another, anywhere and in any order, changes neither where a byte of any
domain is nor the rights to it. -/
theorem resized_walk {D : Type} [DecidableEq D] (S : Domains D) (mem : U64 → U64) (hempty : EmptyRoots S mem)
    (k : Iova S) :
    (∀ us rs : List (Update S Intel.PageTables.Perm), AllowedRun secondStage mem us →
      AllowedRun secondStage (run secondStage mem us) rs →
      Resizing secondStage (spaceAfter secondStage (Space.empty S) us) rs →
      byteOf Intel.PageTables.Perm.rxw (Intel.PageTables.walk .second (S.levels k.domain) (S.root k.domain) k.addr
          (run secondStage (run secondStage mem us) rs)) =
        byteOf Intel.PageTables.Perm.rxw (Intel.PageTables.walk .second (S.levels k.domain) (S.root k.domain) k.addr
          (run secondStage mem us))) ∧
    (∀ us rs : List (Update S (Bool × Bool)), AllowedRun version2 mem us →
      AllowedRun version2 (run version2 mem us) rs →
      Resizing version2 (spaceAfter version2 (Space.empty S) us) rs →
      byteOf v2Rights (Amd.PageTables.walk .v2 (S.levels k.domain) (S.root k.domain) k.addr
          (run version2 (run version2 mem us) rs)) =
        byteOf v2Rights (Amd.PageTables.walk .v2 (S.levels k.domain) (S.root k.domain) k.addr
          (run version2 mem us))) :=
  ⟨fun _ _ hus hrs hresizing =>
      walk_resized secondStage_seesRights ((Refines.initial hempty).run secondStage hus) hrs hresizing true k,
    fun _ _ hus hrs hresizing =>
      walk_resized version2_seesRights ((Refines.initial hempty).run version2 hus) hrs hresizing true k⟩

section Example
variable {Q P : Type} (B : Builders Q P) (rights : Q)

/-- The parts of a page of 2 MiB, in a table that is not linked yet. -/
def cutTable (i : Nat) : U64 := B.leaf 1 (partOf 0x400000#64 1 i) rights

def cutMemory (a : U64) : U64 := if a.toNat / 4096 = 2 then cutTable B rights (a.toNat / 8 % 512) else 0#64

/-- The page, and then its table. -/
def cutPage : Update oneDomain Q := .map oneIova 2 0x400000#64 rights

def cutLink : Update oneDomain Q := .link oneIova 1 0x2000#64 (cutTable B rights)

theorem cutMemory_empty : EmptyRoots oneDomain (cutMemory B rights) := by
  intro d i hi
  have haddr : (slotAddr 0x1000#64 i).toNat = 0x1000 + 8 * i := by
    rw [slotAddr, BitVec.toNat_add, BitVec.toNat_mul, BitVec.toNat_ofNat]
    simp only [BitVec.toNat_ofNat]
    omega
  have hout : ¬(slotAddr 0x1000#64 i).toNat / 4096 = 2 := by omega
  show (cutMemory B rights (slotAddr 0x1000#64 i)).getLsbD 0 = false
  rw [cutMemory, if_neg hout, BitVec.getLsbD_zero]

theorem cutPage_allowed : AllowedRun B (cutMemory B rights) [cutPage rights] :=
  ⟨⟨⟨by decide, by decide, fun _ hl hle => absurd hl (Nat.not_lt.mpr hle)⟩, rfl, by decide⟩, trivial⟩

theorem cutTable_held {i : Nat} (hi : i < 512) :
    run B (cutMemory B rights) [cutPage rights] (slotAddr 0x2000#64 i) = cutTable B rights i := by
  have haddr : (slotAddr 0x2000#64 i).toNat = 0x2000 + 8 * i := by
    rw [slotAddr, BitVec.toNat_add, BitVec.toNat_mul, BitVec.toNat_ofNat]
    simp only [BitVec.toNat_ofNat]
    omega
  have hne : slotAddr 0x2000#64 i ≠ 0x1000#64 := fun heq => by
    rw [heq, BitVec.toNat_ofNat] at haddr
    omega
  have hin : (slotAddr 0x2000#64 i).toNat / 4096 = 2 := by omega
  have hindex : (slotAddr 0x2000#64 i).toNat / 8 % 512 = i := by omega
  have hkept : run B (cutMemory B rights) [cutPage rights] (slotAddr 0x2000#64 i) =
      cutMemory B rights (slotAddr 0x2000#64 i) := Function.update_of_ne hne _ _
  rw [hkept, cutMemory, if_pos hin, hindex]

theorem cutLink_allowed :
    AllowedRun B (run B (cutMemory B rights) [cutPage rights]) [cutLink B rights] := by
  have hR := (Refines.initial (cutMemory_empty B rights)).run B (cutPage_allowed B rights)
  refine ⟨⟨by decide, ⟨by decide, by decide, fun _ hl hle => absurd hl (Nat.not_lt.mpr hle)⟩, ?_⟩, trivial⟩
  refine ⟨rfl, by decide, fun k m hk => ?_, fun i hi => cutTable_held B rights hi, fun i hi _ => ⟨.inr rfl, ?_⟩⟩
  · -- every path stops in the root
    have hlevel : (spaceAfter B (Space.empty oneDomain) [cutPage rights] k).level = 2 := by
      simp only [spaceAfter, cutPage, Update.view, Space.assign]
      split <;> rfl
    have hlow := ((hR.holds.stops k).reaches_iff.mp (reaches_iff.mpr hk)).1
    rw [hlevel] at hlow
    obtain rfl : m = 2 := Nat.le_antisymm hk.2.1 hlow
    have hroot : k.table (run B (cutMemory B rights) [cutPage rights]) 2 = 0x1000#64 := (path_tables _ k.addr 2 _).1
    rw [hroot]
    decide
  · have hframe : (0x400000#64 : U64).toNat % 2 ^ shiftOf (1 + 1) = 0 := rfl
    obtain ⟨-, h52, hpart⟩ := toNat_partOf (by decide) (by decide) hi hframe (by decide)
    rw [cutTable, B.leaf_frame, (aligned_of_level 1 hpart).and_paMask h52]
    exact hpart

theorem cutLink_resizes : Resizing B (spaceAfter B (Space.empty oneDomain) [cutPage rights]) [cutLink B rights] :=
  ⟨⟨0x400000#64, rights, rfl, by decide, fun _ _ => rfl, fun _ hk => if_pos hk⟩, trivial⟩

end Example

theorem cut_walk :
    byteOf Intel.PageTables.Perm.rxw (Intel.PageTables.walk .second 2 0x1000#64 0x5123#64
        (run secondStage (run secondStage (cutMemory secondStage Intel.PageTables.Perm.RW)
          [cutPage Intel.PageTables.Perm.RW]) [cutLink secondStage Intel.PageTables.Perm.RW])) =
      byteOf Intel.PageTables.Perm.rxw (Intel.PageTables.walk .second 2 0x1000#64 0x5123#64
        (run secondStage (cutMemory secondStage Intel.PageTables.Perm.RW) [cutPage Intel.PageTables.Perm.RW])) ∧
    byteOf v2Rights (Amd.PageTables.walk .v2 2 0x1000#64 0x5123#64
        (run version2 (run version2 (cutMemory version2 (true, false)) [cutPage (true, false)])
          [cutLink version2 (true, false)])) =
      byteOf v2Rights (Amd.PageTables.walk .v2 2 0x1000#64 0x5123#64
        (run version2 (cutMemory version2 (true, false)) [cutPage (true, false)])) :=
  ⟨(resized_walk oneDomain _ (cutMemory_empty secondStage _) oneIova).1 _ _ (cutPage_allowed secondStage _)
      (cutLink_allowed secondStage _) (cutLink_resizes secondStage _),
    (resized_walk oneDomain _ (cutMemory_empty version2 _) oneIova).2 _ _ (cutPage_allowed version2 _)
      (cutLink_allowed version2 _) (cutLink_resizes version2 _)⟩

end Iommu.PageTables
