import Iommu.PageTables.Space
import Iommu.PageTables.Builders
import Iommu.PageTables.Changes
import Iommu.PageTables.Leaves

/-! The walker reads the address spaces.

A memory refines the address spaces when its tables are a tree whose paths stop where
they say (`Refines`). Empty roots refine empty spaces, and each update of the one is the
update of the other, so after any run, whichever domains its updates are for, the walker
answers for every address what the address space says (`walk_reads_space`). -/
namespace Iommu.PageTables
open Lib

section Refinement
variable {D Q P : Type} {S : Domains D} (B : Builders Q P) {mem : U64 → U64} {A : Space S}

/-- The memory holds the address spaces, with every page on a boundary of its own size. -/
structure Refines (mem : U64 → U64) (A : Space S) : Prop where
  holds : (trees S).Holds mem A
  clear : ∀ k l e, A k = .ends l e → (e &&& paMask).toNat % 2 ^ shiftOf l = 0

theorem reaches_iff {mem : U64 → U64} {k : Iova S} {l : Nat} : (trees S).Reaches mem k l ↔ k.Reaches mem l := Iff.rfl

theorem onPage_iff {l : Nat} {k k' : Iova S} :
    (trees S).region l k' = (trees S).region l k ↔ Space.OnPage l k k' := Prod.mk.injEq _ _ _ _ ▸ Iff.rfl

theorem stopAt_ends {l m : Nat} {e e' : U64} (h : stopAt l e = .ends m e') : e.getLsbD 0 = true ∧ m = l ∧ e' = e := by
  unfold stopAt at h
  split at h
  case isTrue hp =>
    cases h
    exact ⟨hp, rfl, rfl⟩
  case isFalse => cases h

theorem leaf_terminal {l : Nat} (h1 : 1 ≤ l) (paddr : U64) (rights : Q) :
    (trees S).Terminal l (B.leaf l paddr rights) := by
  intro _
  by_cases hl : l > 1
  · exact .inl ((B.leaf_size l paddr rights).trans (decide_eq_true hl))
  · exact .inr (by omega)

theorem stopAt_leaf (l : Nat) (paddr : U64) (rights : Q) :
    stopAt l (B.leaf l paddr rights) = .ends l (B.leaf l paddr rights) := if_pos (B.leaf_present l paddr rights)

theorem stopAt_empty (l : Nat) : stopAt l B.empty = .absent l :=
  if_neg (Bool.not_eq_true _ ▸ B.empty_absent)

theorem link_frame {next : U64} (ha : Aligned next) (h52 : next.toNat < 2 ^ 52) : B.link next &&& paMask = next := by
  rw [B.links.frame, ha.and_paMask h52]

/-- Nothing is mapped below the roots yet. -/
def EmptyRoots (S : Domains D) (mem : U64 → U64) : Prop :=
  ∀ d, ∀ i < 512, (mem (slotAddr (S.root d) i)).getLsbD 0 = false

/-- Empty roots hold empty address spaces. -/
theorem Refines.initial (h : EmptyRoots S mem) : Refines mem (Space.empty S) := by
  have habsent : ∀ k : Iova S, (mem (entryAddr k.addr (S.levels k.domain) (S.root k.domain))).getLsbD 0 = false :=
    fun k => by
      rw [entryAddr_eq]
      exact h _ _ (slotOf_lt _ (S.levels_le _))
  have hheld := Radix.Holds.initial (R := trees S) (fun k => S.levels_pos k.domain)
    (fun k => S.root_aligned k.domain) fun k hp => absurd (hp.symm.trans (habsent k)) (by decide)
  have hstop : (fun k => (trees S).stopOn ((trees S).levels k)
      (mem ((trees S).cell k ((trees S).levels k) ((trees S).root k)))) = Space.empty S :=
    funext fun k => if_neg (Bool.not_eq_true _ ▸ habsent k)
  rw [hstop] at hheld
  exact ⟨hheld, fun k l e he => by cases he⟩

/-- Below empty roots no path goes on. -/
theorem EmptyRoots.table (h : EmptyRoots S mem) {k : Iova S} {l : Nat} (hk : k.Reaches mem l) :
    k.table mem l = S.root k.domain := by
  have hlevel := (((Refines.initial h).holds.stops k).reaches_iff.mp (reaches_iff.mpr hk)).1
  obtain rfl : l = S.levels k.domain := Nat.le_antisymm hk.2.1 hlevel
  exact (path_tables mem k.addr _ _).1

variable [DecidableEq D]

theorem assign_eq (A below : Space S) (l : Nat) (k : Iova S) :
    (trees S).assign l k below A = A.assign l k below := by
  funext k'
  simp only [Radix.assign, Space.assign, onPage_iff]

theorem marked_eq (A : Space S) (l : Nat) (k : Iova S) (m : Mark) :
    (trees S).marked l k m.mark A = A.marked l k m := by
  funext k'
  simp only [Radix.marked, Space.marked, onPage_iff]

/-- A terminal entry is what the page stops on. -/
theorem Refines.terminal (hR : Refines mem A) {k : Iova S} {l : Nat} {e : U64} (h : k.Reaches mem l)
    (ht : (trees S).Terminal l e) (hclear : e.getLsbD 0 = true → (e &&& paMask).toNat % 2 ^ shiftOf l = 0) :
    Refines (Function.update mem (k.slot mem l) e) (A.assign l k fun _ => stopAt l e) where
  holds := by
    rw [← assign_eq]
    exact hR.holds.write (reaches_iff.mpr h) fun _ _ => .stop ht
  clear k' m e' he := by
    unfold Space.assign at he
    split at he
    case isTrue =>
      obtain ⟨hp, rfl, rfl⟩ := stopAt_ends he
      exact hclear hp
    case isFalse => exact hR.clear k' m e' he

/-- A prepared table is what the page stops on. -/
theorem Refines.link (hR : Refines mem A) {k : Iova S} {l : Nat} {next : U64} {entries : Nat → U64} (h1 : 1 ≤ l)
    (h : k.Reaches mem (l + 1)) (hp : Prepared S mem l next entries) :
    Refines (Function.update mem (k.slot mem (l + 1)) (B.link next))
      (A.assign (l + 1) k fun k' => stopAt l (entries (slotOf k'.addr l).toNat)) := by
  have hslot : ∀ k' : Iova S, Space.OnPage (l + 1) k k' → (slotOf k'.addr l).toNat < 512 := fun k' hk => by
    have hlevels := S.levels_le k.domain
    exact slotOf_lt _ (Nat.le_trans (Nat.le_of_succ_le h.2.1) hlevels)
  have hframe : B.link next &&& paMask = next := link_frame B hp.aligned hp.fits
  constructor
  · rw [← assign_eq]
    refine hR.holds.write (reaches_iff.mpr h) fun k' hk => ?_
    have hcell : mem ((trees S).cell k' l ((trees S).next (B.link next))) = entries (slotOf k'.addr l).toNat := by
      show mem (entryAddr k'.addr l (B.link next &&& paMask)) = _
      rw [hframe, entryAddr_eq]
      exact hp.held _ (hslot k' (onPage_iff.mp hk))
    have hlink : ¬(trees S).Terminal (l + 1) (B.link next) := fun ht => by
      rcases ht (B.links.present next) with hleaf | hone
      · exact absurd (hleaf.symm.trans (B.links.not_leaf next)) (by decide)
      · omega
    have hfresh : (trees S).Fresh mem ((trees S).next (B.link next)) := by
      show (trees S).Fresh mem (B.link next &&& paMask)
      rw [hframe]
      exact ⟨hp.aligned, fun {k'} {m} hk' => hp.unreached k' m (reaches_iff.mp hk')⟩
    have hterm : (trees S).Terminal l (mem ((trees S).cell k' l ((trees S).next (B.link next)))) := by
      rw [hcell]
      exact fun hpresent => (hp.leaves _ (hslot k' (onPage_iff.mp hk)) hpresent).1
    have hleads := Radix.Leads.link hlink hfresh hterm
    rwa [hcell] at hleads
  · intro k' m e' he
    unfold Space.assign at he
    split at he
    case isTrue hk =>
      obtain ⟨hpresent, rfl, rfl⟩ := stopAt_ends he
      exact (hp.leaves _ (hslot k' hk) hpresent).2
    case isFalse => exact hR.clear k' m e' he

theorem Refines.marked (hR : Refines mem A) {k : Iova S} {l : Nat} (h : k.Reaches mem l) (m : Mark) :
    Refines (Function.update mem (k.slot mem l) (m.mark (mem (k.slot mem l)))) (A.marked l k m) where
  holds := by
    rw [← marked_eq]
    exact hR.holds.mark (reaches_iff.mpr h) m.present m.size m.frame
  clear k' j e he := by
    unfold Space.marked at he
    cases hs : A k' with
    | absent i =>
      rw [hs] at he
      cases he
    | ends i e' =>
      rw [hs] at he
      simp only [Radix.onStop] at he
      split at he
      · cases he
        rw [m.frame]
        exact hR.clear k' j e' hs
      · cases he
        exact hR.clear k' j e hs

/-- **An update of the memory is the update of the address spaces.** -/
theorem Refines.apply (hR : Refines mem A) (u : Update S Q) (h : u.Allowed mem) :
    Refines (u.apply B mem) (u.view B A) := by
  cases u with
  | map k l paddr rights =>
    obtain ⟨hreach, hpage, h52⟩ := h
    have hleaf := hR.terminal hreach (leaf_terminal B hreach.1 paddr rights) fun _ => by
      rw [B.leaf_frame, (aligned_of_level l hpage).and_paMask h52, hpage]
    rwa [stopAt_leaf] at hleaf
  | unmap k l =>
    have habsent : ¬B.empty.getLsbD 0 = true := by
      rw [B.empty_absent]
      decide
    have hempty := hR.terminal h (fun hp => absurd hp habsent) fun hp => absurd hp habsent
    rwa [stopAt_empty] at hempty
  | link k l next entries =>
    obtain ⟨h1, hreach, hprepared⟩ := h
    exact hR.link B h1 hreach hprepared
  | mark k l m => exact hR.marked h m
  | other a value => exact ⟨hR.holds.other fun hk => h _ _ (reaches_iff.mp hk), hR.clear⟩

theorem Refines.run (hR : Refines mem A) {us : List (Update S Q)} (h : AllowedRun B mem us) :
    Refines (run B mem us) (spaceAfter B A us) := by
  induction us generalizing mem A with
  | nil => exact hR
  | cons u us ih => exact ih (hR.apply B u h.1) h.2

/-- What a walker answers for an address that stops on `s`. -/
structure Answers (permsOf : U64 → P) (v : U64) (s : Stop U64) (walk : Exec (Except WalkError (WalkResult P))) :
    Prop where
  result : walk = report permsOf v (some s)
  physical : ∀ l e, s = .ends l e →
    (leafResult permsOf v l e).physical.toNat = (e &&& paMask).toNat + v.toNat % 2 ^ shiftOf l

omit [DecidableEq D] in
theorem Iova.shift (k : Iova S) : k.addr >>> (shiftOf (S.levels k.domain) + 9) = 0#64 := by
  rw [shift_eq_zero_iff, width_eq (S.levels_pos k.domain)]
  exact k.within

omit [DecidableEq D] in
/-- The walker answers what the space says. -/
theorem Refines.walk (hR : Refines mem A) (permsOf : U64 → P) (widthChecked : Bool) (k : Iova S) :
    Answers permsOf k.addr (A k)
      (walkWith permsOf k.addr mem widthChecked (S.levels k.domain) (S.root k.domain)) where
  result := by
    rw [walkWith_eq permsOf k.addr mem (S.levels_pos _) (S.levels_le _) _ (S.root_aligned _) fun _ => k.shift]
    exact congrArg _ (((tree k.addr mem).resolve_iff _ _ _).mpr (hR.holds.stops k))
  physical l e he := by
    have hreach := (hR.holds.stops k).reaches
    rw [he] at hreach
    exact leafResult_physical _ k.addr (Nat.le_trans hreach.2.1 (S.levels_le _)) rfl (hR.clear k l e he)

end Refinement

/-! ### From a root -/

section Translation
variable {D Q P : Type} {S : Domains D} (B : Builders Q P)

/-- A walker from a root answers as a domain's address space has it, and refuses what its
levels have no bits for. -/
structure Translates (A : Space S) (d : D) (levels : Nat) (walk : U64 → Exec (Except WalkError (WalkResult P))) :
    Prop where
  within : ∀ k : Iova S, k.domain = d → Answers B.permsOf k.addr (A k) (walk k.addr)
  beyond : ∀ vaddr : U64, 2 ^ (12 + 9 * levels) ≤ vaddr.toNat →
    walk vaddr = .returns (.error (.addressTooLarge (12 + 9 * levels)))

theorem translates_of_refines {mem : U64 → U64} {A : Space S} (h : Refines mem A) (d : D) :
    Translates B A d (S.levels d) fun vaddr => walkWith B.permsOf vaddr mem true (S.levels d) (S.root d) where
  within k hk := by
    subst hk
    exact h.walk B.permsOf true k
  beyond vaddr hv := by
    have hlarge : vaddr >>> (shiftOf (S.levels d) + 9) ≠ 0#64 := by
      rw [ne_eq, shift_eq_zero_iff, width_eq (S.levels_pos d)]
      exact Nat.not_lt.mpr hv
    rw [walkWith_too_large B.permsOf vaddr mem (S.levels_pos d) (S.levels_le d) _ hlarge, width_eq (S.levels_pos d)]

/-- After allowed updates from empty roots, from any root that is the domain's. -/
theorem translates_run [DecidableEq D] {mem : U64 → U64} (hempty : EmptyRoots S mem) {us : List (Update S Q)}
    (hrun : AllowedRun B mem us) {d : D} {root : U64} {levels : Nat} (hroot : root = S.root d)
    (hlevels : levels = S.levels d) :
    Translates B (spaceAfter B (Space.empty S) us) d levels fun vaddr =>
      walkWith B.permsOf vaddr (run B mem us) true levels root := by
  subst hroot hlevels
  exact translates_of_refines B ((Refines.initial hempty).run B hrun) d

end Translation

/-! ### The two crates -/

theorem hugePage_frame (paddr : U64) (perms : Intel.PageTables.Perm) :
    (Intel.PageTables.SecondStagePte.hugePage paddr perms).bits &&& paMask = paddr &&& paMask := by
  have hflags : ((perms.bits &&& 0x3#64) ||| (Intel.PageTables.Perm.PAGE_SIZE.bits ||| 1#64)) &&& paMask = 0#64 := by
    rw [BitVec.and_or_distrib_right, BitVec.and_assoc, show 0x3#64 &&& paMask = 0#64 from rfl, BitVec.and_zero]
    rfl
  rw [Intel.PageTables.SecondStagePte.hugePage, BitVec.or_assoc, BitVec.or_assoc]
  exact frame_or hflags paddr

/-- A leaf of a level: the page size bit is in those above level 1. -/
def secondStageLeaf (l : Nat) (paddr : U64) (perms : Intel.PageTables.Perm) : U64 :=
  if l > 1 then (Intel.PageTables.SecondStagePte.hugePage paddr perms).bits
  else (Intel.PageTables.SecondStagePte.page paddr perms).bits

/-- Second-stage tables. -/
def secondStage : Builders Intel.PageTables.Perm Intel.PageTables.Perm where
  empty := Intel.PageTables.SecondStagePte.EMPTY.bits
  leaf := secondStageLeaf
  link next := (Intel.PageTables.SecondStagePte.table next).bits
  permsOf := Intel.PageTables.Perm.fromBitsTruncate
  widthChecked := true
  empty_absent := rfl
  leaf_present l paddr perms := by
    unfold secondStageLeaf
    split
    · exact (hugePage_builds paddr perms).present
    · exact (page_builds paddr perms).present
  leaf_size l paddr perms := by
    unfold secondStageLeaf
    by_cases hl : l > 1
    · simp [hl, Intel.PageTables.SecondStagePte.hugePage, Intel.PageTables.Perm.PAGE_SIZE]
    · simp [hl, Intel.PageTables.SecondStagePte.page, paMask]
  leaf_frame l paddr perms := by
    unfold secondStageLeaf
    split
    · exact hugePage_frame paddr perms
    · exact page_frame paddr perms
  links := links_table

/-- AMD64 tables: the rights are to write and to user mode. -/
def version2 : Builders (Bool × Bool) Amd.PageTables.Perm where
  empty := 0#64
  leaf l paddr rights := v2Leaf l paddr rights.1 rights.2
  link := Amd.PageTables.v2Table
  permsOf := Amd.PageTables.Perm.fromBitsRetain
  widthChecked := true
  empty_absent := rfl
  leaf_present l paddr rights := by
    rw [v2Leaf_flag l paddr rights.1 rights.2 (by decide)]
    exact (v2LeafFlags_bits _ _ _).2.1
  leaf_size l paddr rights := by
    rw [v2Leaf_flag l paddr rights.1 rights.2 (by decide)]
    exact (v2LeafFlags_bits _ _ _).2.2.1
  leaf_frame l paddr rights := by
    rw [v2Leaf_eq, frame_or (v2LeafFlags_bits _ _ _).1]
  links := links_v2Table

/-- What the hardware does to a second-stage entry that it uses. -/
def accessedDirty (accessed dirty : Bool) : Mark where
  mark e := ((⟨e⟩ : Intel.PageTables.SecondStagePte).withAccessedDirty accessed dirty).bits
  present e := by rw [withAccessedDirty_bits, BitVec.getLsbD_or, (markBits_apart accessed dirty).1, Bool.or_false]
  size e := by rw [withAccessedDirty_bits, BitVec.getLsbD_or, (markBits_apart accessed dirty).2.1, Bool.or_false]
  frame e := by
    rw [withAccessedDirty_bits, BitVec.and_or_distrib_right, (markBits_apart accessed dirty).2.2, BitVec.or_zero]

/-- **The walkers read the address spaces**: after any run of updates, in any order and
for any domains, each address of each domain is answered as its address space has it. -/
theorem walk_reads_space {D : Type} [DecidableEq D] (S : Domains D) (mem : U64 → U64) (hempty : EmptyRoots S mem)
    (k : Iova S) :
    (∀ us, AllowedRun secondStage mem us →
      Answers Intel.PageTables.Perm.fromBitsTruncate k.addr (spaceAfter secondStage (Space.empty S) us k)
        (Intel.PageTables.walk .second (S.levels k.domain) (S.root k.domain) k.addr (run secondStage mem us))) ∧
    (∀ us, AllowedRun version2 mem us →
      Answers Amd.PageTables.Perm.fromBitsRetain k.addr (spaceAfter version2 (Space.empty S) us k)
        (Amd.PageTables.walk .v2 (S.levels k.domain) (S.root k.domain) k.addr (run version2 mem us))) :=
  ⟨fun _ h => ((Refines.initial hempty).run secondStage h).walk _ true k,
    fun _ h => ((Refines.initial hempty).run version2 h).walk _ true k⟩

/-- One domain, of two levels. -/
def oneDomain : Domains Unit where
  root _ := 0x1000#64
  levels _ := 2
  levels_pos _ := Nat.le_succ 1
  levels_le _ := Nat.le_add_left 2 3
  root_aligned _ := rfl
  root_injective _ _ _ := rfl

def oneIova : Iova oneDomain := ⟨(), 0x5123#64, by decide⟩

/-- A table is linked, and a page put in it. -/
def oneRun {Q : Type} (rights : Q) : List (Update oneDomain Q) :=
  [.link oneIova 1 0x2000#64 fun _ => 0#64, .map oneIova 1 0x12345000#64 rights]

theorem oneDomain_empty : EmptyRoots oneDomain fun _ => 0#64 := fun _ _ _ => BitVec.getLsbD_zero

theorem oneRun_allowed {Q P : Type} (B : Builders Q P) (rights : Q)
    (hlink : (B.link 0x2000#64).getLsbD 0 = true ∧ (B.link 0x2000#64).getLsbD 7 = false) :
    AllowedRun B (fun _ => 0#64) (oneRun rights) := by
  refine ⟨⟨by decide, ⟨by decide, by decide, fun l hl hle => absurd hl (Nat.not_lt.mpr hle)⟩, ?_⟩,
    ⟨⟨by decide, by decide, ?_⟩, by decide, by decide⟩, trivial⟩
  · refine ⟨rfl, by decide, fun k m hk => ?_, fun _ _ => rfl, fun _ _ h => absurd h (by decide)⟩
    rw [oneDomain_empty.table hk]
    exact (by decide : (0x1000#64 : U64) ≠ 0x2000#64)
  · intro l hl hle
    obtain rfl : l = 2 := Nat.le_antisymm hle hl
    exact hlink

/-- The page is then used. -/
def oneMark {Q : Type} : Update oneDomain Q := .mark oneIova 1 (accessedDirty true true)

theorem oneRun_marked :
    AllowedRun secondStage (fun _ => 0#64) (oneRun Intel.PageTables.Perm.RW ++ [oneMark]) := by
  rw [allowedRun_append]
  refine ⟨oneRun_allowed secondStage _ ⟨rfl, rfl⟩, ⟨by decide, by decide, fun l hl hle => ?_⟩, trivial⟩
  obtain rfl : l = 2 := Nat.le_antisymm hle hl
  decide

theorem oneRun_read :
    Answers Intel.PageTables.Perm.fromBitsTruncate 0x5123#64
      (spaceAfter secondStage (Space.empty oneDomain) (oneRun Intel.PageTables.Perm.RW ++ [oneMark]) oneIova)
      (Intel.PageTables.walk .second 2 0x1000#64 0x5123#64
        (run secondStage (fun _ => 0#64) (oneRun Intel.PageTables.Perm.RW ++ [oneMark]))) ∧
    Answers Amd.PageTables.Perm.fromBitsRetain 0x5123#64
      (spaceAfter version2 (Space.empty oneDomain) (oneRun (true, true)) oneIova)
      (Amd.PageTables.walk .v2 2 0x1000#64 0x5123#64 (run version2 (fun _ => 0#64) (oneRun (true, true)))) :=
  have hreads := walk_reads_space oneDomain (fun _ => 0#64) oneDomain_empty oneIova
  ⟨hreads.1 _ oneRun_marked, hreads.2 _ (oneRun_allowed version2 _ ⟨rfl, rfl⟩)⟩

end Iommu.PageTables
