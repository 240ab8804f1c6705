import Iommu.PageTables.Refinement

/-! What a run leaves of each update.

An address space is assigned page by page, so what an address stops on is what the last
update that covers it says, and only the updates of its own domain can
(`spaceAfter_filter`). Through the walker: a domain is answered the same whatever is
done to the others in between (`domains_isolated`), and the leaves of a range may be
put in any order (`range_mapped`). -/
namespace Iommu.PageTables
open Lib

section Coverage
variable {D Q P : Type} {S : Domains D}

namespace Update

/-- The domain whose tables an update is for. -/
def domain : Update S Q → Option D
  | map k _ _ _ => some k.domain
  | unmap k _ => some k.domain
  | link k _ _ _ => some k.domain
  | mark k _ _ => some k.domain
  | other _ _ => none

def isFor [DecidableEq D] (d : D) (u : Update S Q) : Bool := decide (u.domain = some d)

/-- The address is on the page that the update assigns. -/
def Covers (k : Iova S) : Update S Q → Prop
  | map k' l _ _ => Space.OnPage l k' k
  | unmap k' l => Space.OnPage l k' k
  | link k' l _ _ => Space.OnPage (l + 1) k' k
  | mark k' l _ => Space.OnPage l k' k
  | other _ _ => False

theorem Covers.domain {k : Iova S} {u : Update S Q} (h : u.Covers k) : u.domain = some k.domain := by
  cases u with
  | other => exact h.elim
  | _ => exact congrArg some h.1.symm

end Update

/-- Addresses of one 4 KiB page are on the same pages of every size. -/
theorem onPage_of_page {k k' : Iova S} (h : Space.OnPage 1 k k') (l : Nat) (k₀ : Iova S) :
    Space.OnPage l k₀ k' ↔ Space.OnPage l k₀ k := by
  have hpage : k'.addr.toNat / 2 ^ shiftOf l = k.addr.toNat / 2 ^ shiftOf l :=
    Positional.div_congr h.2 (Nat.le_add_right 12 _)
  rw [Space.OnPage, Space.OnPage, hpage, h.1]

theorem Update.covers_page {k k' : Iova S} (h : Space.OnPage 1 k k') (u : Update S Q) :
    u.Covers k' ↔ u.Covers k := by
  cases u with
  | other => exact Iff.rfl
  | _ => exact onPage_of_page h _ _

variable [DecidableEq D] (B : Builders Q P) {A A' : Space S} {k : Iova S}

theorem view_of_not_covers {u : Update S Q} (h : ¬u.Covers k) : u.view B A k = A k := by
  cases u with
  | mark k' l m =>
    have hmark : ∀ s : Stop U64, Radix.onStop (fun j => j = l ∧ Space.OnPage l k' k) m.mark s = s := fun s => by
      cases s with
      | absent => rfl
      | ends j e => exact if_neg fun hj => h hj.2
    exact hmark (A k)
  | other => rfl
  | _ => exact if_neg h

/-- An update makes of an address what it was. -/
theorem view_congr (u : Update S Q) (h : A k = A' k) : u.view B A k = u.view B A' k := by
  cases u with
  | mark k' l m => simp only [Update.view, Space.marked, h]
  | other => exact h
  | _ => simp only [Update.view, Space.assign, h]

theorem spaceAfter_append (us us' : List (Update S Q)) :
    spaceAfter B A (us ++ us') = spaceAfter B (spaceAfter B A us) us' := by
  induction us generalizing A with
  | nil => rfl
  | cons u us ih => exact ih

/-- Updates that do not cover an address leave it. -/
theorem spaceAfter_of_not_covers {us : List (Update S Q)} (h : ∀ u ∈ us, ¬u.Covers k) :
    spaceAfter B A us k = A k := by
  induction us generalizing A with
  | nil => rfl
  | cons u us ih =>
    rw [spaceAfter, ih fun v hv => h v (List.mem_cons_of_mem u hv), view_of_not_covers B (h u List.mem_cons_self)]

/-- Only the updates of its own domain make an address what it is. -/
theorem spaceAfter_filter (us : List (Update S Q)) (h : A k = A' k) :
    spaceAfter B A us k = spaceAfter B A' (us.filter (Update.isFor k.domain)) k := by
  induction us generalizing A A' with
  | nil => exact h
  | cons u us ih =>
    by_cases hu : u.isFor k.domain = true
    · rw [List.filter_cons_of_pos hu]
      exact ih (view_congr B u h)
    · rw [List.filter_cons_of_neg hu]
      have hcovers : ¬u.Covers k := fun hc => hu (decide_eq_true hc.domain)
      exact ih ((view_of_not_covers B hcovers).trans h)

/-- What the last update that covers an address says of it. -/
theorem spaceAfter_last {us pre post : List (Update S Q)} {u : Update S Q} (hus : us = pre ++ u :: post)
    (h : ∀ v ∈ post, ¬v.Covers k) : spaceAfter B A us k = u.view B (spaceAfter B A pre) k := by
  rw [hus, spaceAfter_append, spaceAfter, spaceAfter_of_not_covers B h]

/-! ### Isolation -/

variable {mem mem' : U64 → U64} {us us' : List (Update S Q)}

/-- Two runs that do the same for a domain, from empty roots, make it the same. -/
theorem Answers.isolated (hempty : EmptyRoots S mem) (hempty' : EmptyRoots S mem') (hrun : AllowedRun B mem us)
    (hrun' : AllowedRun B mem' us') (k : Iova S)
    (hsame : us.filter (Update.isFor k.domain) = us'.filter (Update.isFor k.domain)) (widthChecked : Bool) :
    walkWith B.permsOf k.addr (run B mem us) widthChecked (S.levels k.domain) (S.root k.domain) =
      walkWith B.permsOf k.addr (run B mem' us') widthChecked (S.levels k.domain) (S.root k.domain) := by
  have hspace : spaceAfter B (Space.empty S) us k = spaceAfter B (Space.empty S) us' k := by
    rw [spaceAfter_filter B us rfl, hsame, ← spaceAfter_filter B us' rfl]
  have hreads := (((Refines.initial hempty).run B hrun).walk B.permsOf widthChecked k).result
  have hreads' := (((Refines.initial hempty').run B hrun').walk B.permsOf widthChecked k).result
  rw [hreads, hreads', hspace]

end Coverage

/-- **Domains are isolated**: an address is answered the same after any two runs that have
the same updates of its own domain in the same order, whatever they do to the other
domains before, between and after those, and whatever else the memories hold. -/
theorem domains_isolated {D : Type} [DecidableEq D] (S : Domains D) (mem mem' : U64 → U64)
    (hempty : EmptyRoots S mem) (hempty' : EmptyRoots S mem') (k : Iova S) :
    (∀ us us' : List (Update S Intel.PageTables.Perm), AllowedRun secondStage mem us → AllowedRun secondStage mem' us' →
      us.filter (Update.isFor k.domain) = us'.filter (Update.isFor k.domain) →
      Intel.PageTables.walk .second (S.levels k.domain) (S.root k.domain) k.addr (run secondStage mem us) =
        Intel.PageTables.walk .second (S.levels k.domain) (S.root k.domain) k.addr (run secondStage mem' us')) ∧
    (∀ us us' : List (Update S (Bool × Bool)), AllowedRun version2 mem us → AllowedRun version2 mem' us' →
      us.filter (Update.isFor k.domain) = us'.filter (Update.isFor k.domain) →
      Amd.PageTables.walk .v2 (S.levels k.domain) (S.root k.domain) k.addr (run version2 mem us) =
        Amd.PageTables.walk .v2 (S.levels k.domain) (S.root k.domain) k.addr (run version2 mem' us')) :=
  ⟨fun _ _ hrun hrun' hsame => Answers.isolated secondStage hempty hempty' hrun hrun' k hsame true,
    fun _ _ hrun hrun' hsame => Answers.isolated version2 hempty hempty' hrun hrun' k hsame true⟩

/-- Two domains of one level each. -/
def twoDomains : Domains Bool where
  root d := if d then 0x1000#64 else 0x2000#64
  levels _ := 1
  levels_pos _ := Nat.le_refl 1
  levels_le _ := Nat.le_add_left 1 4
  root_aligned d := by cases d <;> rfl
  root_injective d d' h := by
    revert d d'
    decide

def twoIova (d : Bool) : Iova twoDomains := ⟨d, 0x5123#64, by cases d <;> decide⟩

/-- The page of one of them is mapped. -/
def twoMap {Q : Type} (d : Bool) (rights : Q) : Update twoDomains Q := .map (twoIova d) 1 0x12345000#64 rights

theorem twoMap_allowed {Q : Type} (mem : U64 → U64) (d : Bool) (rights : Q) : (twoMap d rights).Allowed mem :=
  ⟨⟨Nat.le_refl 1, Nat.le_refl 1, fun _ hl hle => absurd hl (Nat.not_lt.mpr hle)⟩, rfl, by decide⟩

theorem twoDomains_isolated :
    Intel.PageTables.walk .second 1 0x1000#64 0x5123#64
        (run secondStage (fun _ => 0#64) [twoMap true Intel.PageTables.Perm.RW]) =
      Intel.PageTables.walk .second 1 0x1000#64 0x5123#64 (run secondStage (fun _ => 0#64)
        [twoMap false Intel.PageTables.Perm.R, twoMap true Intel.PageTables.Perm.RW]) ∧
    Amd.PageTables.walk .v2 1 0x1000#64 0x5123#64 (run version2 (fun _ => 0#64) [twoMap true (true, false)]) =
      Amd.PageTables.walk .v2 1 0x1000#64 0x5123#64 (run version2 (fun _ => 0#64)
        [twoMap false (true, true), twoMap true (true, false)]) :=
  have hempty : EmptyRoots twoDomains fun _ => 0#64 := fun _ _ _ => BitVec.getLsbD_zero
  have hsame := domains_isolated twoDomains _ _ hempty hempty (twoIova true)
  ⟨hsame.1 _ _ ⟨twoMap_allowed _ _ _, trivial⟩ ⟨twoMap_allowed _ _ _, twoMap_allowed _ _ _, trivial⟩ rfl,
    hsame.2 _ _ ⟨twoMap_allowed _ _ _, trivial⟩ ⟨twoMap_allowed _ _ _, twoMap_allowed _ _ _, trivial⟩ rfl⟩

/-! ### Confinement -/

section Confinement
variable {D Q P : Type} {S : Domains D} (B : Builders Q P) (owned : D → Set Nat)

/-- The bytes of a frame of a level are a domain's own. -/
def FrameOwned (d : D) (l base : Nat) : Prop := ∀ b < 2 ^ shiftOf l, base + b ∈ owned d

/-- An update maps no byte that is not its domain's own. -/
def Update.Within : Update S Q → Prop
  | map k l paddr _ => FrameOwned owned k.domain l paddr.toNat
  | link k l _ entries =>
    ∀ i < 512, (entries i).getLsbD 0 = true → FrameOwned owned k.domain l (entries i &&& paMask).toNat
  | _ => True

def Space.Within (A : Space S) : Prop := ∀ k l e, A k = .ends l e → FrameOwned owned k.domain l (e &&& paMask).toNat

variable {owned}

/-- What a domain is answered is its own. -/
theorem Answers.within {A : Space S} (hA : A.Within owned) {k : Iova S} {permsOf : U64 → P}
    {walk : Exec (Except WalkError (WalkResult P))} (h : Answers permsOf k.addr (A k) walk) {r : WalkResult P}
    (hr : walk = .returns (.ok r)) : r.physical.toNat ∈ owned k.domain := by
  obtain ⟨e, he, hres⟩ := (report_ok_iff permsOf k.addr _ r).mp (h.result.symm.trans hr)
  have hstop := Option.some.inj he
  rw [hres, h.physical _ _ hstop]
  exact hA k _ e hstop _ (Nat.mod_lt _ (Nat.two_pow_pos _))

variable [DecidableEq D]

theorem view_within {A : Space S} {mem : U64 → U64} {u : Update S Q} (hA : A.Within owned) (h : u.Allowed mem)
    (hu : u.Within owned) : (u.view B A).Within owned := by
  intro k l e he
  by_cases hcovers : u.Covers k
  · cases u with
    | map k' l' paddr rights =>
      obtain ⟨-, hp, h52⟩ := h
      have hview : Stop.ends l' (B.leaf l' paddr rights) = .ends l e := (if_pos hcovers).symm.trans he
      cases hview
      rw [B.leaf_frame, (aligned_of_level l hp).and_paMask h52, hcovers.1]
      exact hu
    | unmap k' l' =>
      have hview : Stop.absent l' = .ends l e := (if_pos hcovers).symm.trans he
      cases hview
    | link k' l' next entries =>
      obtain ⟨hp, rfl, rfl⟩ := stopAt_ends ((if_pos hcovers).symm.trans he)
      have hlevel : l ≤ 5 := Nat.le_trans (Nat.le_of_succ_le h.2.1.2.1) (S.levels_le _)
      rw [hcovers.1]
      exact hu _ (slotOf_lt _ hlevel) hp
    | mark k' l' m =>
      have hview : Radix.onStop (fun j => j = l' ∧ Space.OnPage l' k' k) m.mark (A k) = .ends l e := he
      cases hs : A k with
      | absent j =>
        rw [hs] at hview
        cases hview
      | ends j e' =>
        rw [hs] at hview
        have hown := hA k j e' hs
        simp only [Radix.onStop] at hview
        split at hview
        · cases hview
          rw [m.frame]
          exact hown
        · cases hview
          exact hown
    | other => exact hcovers.elim
  · rw [view_of_not_covers B hcovers] at he
    exact hA k l e he

theorem spaceAfter_within {A : Space S} {mem : U64 → U64} {us : List (Update S Q)} (hA : A.Within owned)
    (hrun : AllowedRun B mem us) (hus : ∀ u ∈ us, u.Within owned) : (spaceAfter B A us).Within owned := by
  induction us generalizing mem A with
  | nil => exact hA
  | cons u us ih =>
    exact ih (view_within B hA hrun.1 (hus u List.mem_cons_self)) hrun.2 fun v hv => hus v (List.mem_cons_of_mem u hv)

end Confinement

/-- **A domain reaches no memory but its own**: when every page that a run maps for a
domain is of the memory given to it, so is every byte that the domain is answered with,
after any updates of it and of the others. -/
theorem domains_confined {D : Type} [DecidableEq D] (S : Domains D) (mem : U64 → U64) (hempty : EmptyRoots S mem)
    (owned : D → Set Nat) (k : Iova S) :
    (∀ us : List (Update S Intel.PageTables.Perm), AllowedRun secondStage mem us → (∀ u ∈ us, u.Within owned) →
      ∀ r, Intel.PageTables.walk .second (S.levels k.domain) (S.root k.domain) k.addr (run secondStage mem us) =
        .returns (.ok r) → r.physical.toNat ∈ owned k.domain) ∧
    (∀ us : List (Update S (Bool × Bool)), AllowedRun version2 mem us → (∀ u ∈ us, u.Within owned) →
      ∀ r, Amd.PageTables.walk .v2 (S.levels k.domain) (S.root k.domain) k.addr (run version2 mem us) =
        .returns (.ok r) → r.physical.toNat ∈ owned k.domain) := by
  have hnone : (Space.empty S).Within owned := fun _ _ _ h => by cases h
  constructor
  · intro us hrun hus r hr
    have hread := ((Refines.initial hempty).run secondStage hrun).walk Intel.PageTables.Perm.fromBitsTruncate true k
    exact hread.within (spaceAfter_within secondStage hnone hrun hus) hr
  · intro us hrun hus r hr
    have hread := ((Refines.initial hempty).run version2 hrun).walk Amd.PageTables.Perm.fromBitsRetain true k
    exact hread.within (spaceAfter_within version2 hnone hrun hus) hr

/-- The page that both domains map is given to both. -/
theorem twoDomains_confined :
    (∀ r, Intel.PageTables.walk .second 1 0x1000#64 0x5123#64
        (run secondStage (fun _ => 0#64) [twoMap false Intel.PageTables.Perm.R, twoMap true Intel.PageTables.Perm.RW]) =
        .returns (.ok r) → r.physical.toNat ∈ Set.Ico 0x12345000 0x12346000) ∧
    (∀ r, Amd.PageTables.walk .v2 1 0x1000#64 0x5123#64
        (run version2 (fun _ => 0#64) [twoMap false (true, true), twoMap true (true, false)]) =
        .returns (.ok r) → r.physical.toNat ∈ Set.Ico 0x12345000 0x12346000) := by
  have hempty : EmptyRoots twoDomains fun _ => 0#64 := fun _ _ _ => BitVec.getLsbD_zero
  have hconfined := domains_confined twoDomains _ hempty (fun _ => Set.Ico 0x12345000 0x12346000) (twoIova true)
  have hwithin : ∀ {Q : Type} (d : Bool) (rights : Q),
      (twoMap d rights).Within fun _ => Set.Ico 0x12345000 0x12346000 := fun d rights b hb =>
    ⟨Nat.le_add_right _ b, Nat.add_lt_add_left (show b < 4096 from hb) 0x12345000⟩
  refine ⟨hconfined.1 _ ⟨twoMap_allowed _ _ _, twoMap_allowed _ _ _, trivial⟩ fun u hu => ?_,
    hconfined.2 _ ⟨twoMap_allowed _ _ _, twoMap_allowed _ _ _, trivial⟩ fun u hu => ?_⟩
  all_goals
    rcases List.mem_pair.mp hu with rfl | rfl
    · exact hwithin _ _
    · exact hwithin _ _

/-! ### Ranges -/

/-- The leaf of a page is put by an update that no later one covers. -/
def MappedLast {D Q : Type} {S : Domains D} (us : List (Update S Q)) (d : D) (g h : U64) (rights : Q) : Prop :=
  ∃ pre post k, us = pre ++ .map k 1 h rights :: post ∧ k.domain = d ∧ k.addr = g ∧ ∀ u ∈ post, ¬u.Covers k

open Intel.PageTables in
/-- A byte of a range that fits is on the page of a leaf. -/
theorem Range.byte_leaf (m : MapRange) {levels : Nat} (h5 : levels ≤ 5) (hf : Range.Fits m levels) {i : Nat}
    (hi : i < 4096 * m.pageCount.toNat) :
    ∃ g h, .returns (g, h, SecondStagePte.page h m.perms) ∈ m.leaves ∧
      (m.guestBase + BitVec.ofNat 64 i).toNat < 2 ^ (12 + 9 * levels) ∧
      (m.guestBase + BitVec.ofNat 64 i).toNat / 4096 = g.toNat / 4096 ∧ Aligned h ∧ h.toNat < 2 ^ 52 ∧
      h.toNat + (m.guestBase + BitVec.ofNat 64 i).toNat % 4096 = m.hostBase.toNat + i := by
  have hpage : i / 4096 < m.pageCount.toNat := Nat.div_lt_of_lt_mul hi
  obtain ⟨g, h, hleaf, hg, hh⟩ := Range.leaf_eq m h5 hf hpage
  have hguest := hf.guest_fits
  have hhost := hf.host_fits
  have hga := hf.guest_aligned
  have hha := hf.host_aligned
  unfold Aligned at hga hha
  have hpow : 2 ^ (12 + 9 * levels) ≤ 2 ^ 57 := Nat.pow_le_pow_right (by decide) (by omega)
  have hv : (m.guestBase + BitVec.ofNat 64 i).toNat = m.guestBase.toNat + i := by
    rw [BitVec.toNat_add, BitVec.toNat_ofNat]
    omega
  have haligned : Aligned h := by
    unfold Aligned
    omega
  rw [hv]
  exact ⟨g, h, hleaf ▸ Range.leaf_mem m hpage, by omega, by omega, haligned, by omega, by omega⟩

open Intel.PageTables in
/-- **The leaves of a range may be put in any order**: when the last update of each of its
pages is the leaf that the range yields for it, the range is mapped, whatever is done to
the rest of the domain, and to the others, in between. -/
theorem range_mapped {D : Type} [DecidableEq D] (S : Domains D) (mem : U64 → U64) (hempty : EmptyRoots S mem)
    (us : List (Update S Perm)) (hrun : AllowedRun secondStage mem us) (d : D) (m : MapRange)
    (hf : Range.Fits m (S.levels d))
    (hleaves : ∀ g h pte, .returns (g, h, pte) ∈ m.leaves → MappedLast us d g h m.perms) (i : Nat)
    (hi : i < 4096 * m.pageCount.toNat) :
    ∃ r, walk .second (S.levels d) (S.root d) (m.guestBase + BitVec.ofNat 64 i) (run secondStage mem us) =
        .returns (.ok r) ∧ r.physical.toNat = m.hostBase.toNat + i ∧ r.level = 1 ∧ r.huge = false ∧
      r.perms.contains Perm.W = m.perms.contains Perm.W := by
  obtain ⟨g, h, hmem, hwithin, hpage, haligned, h52, hbyte⟩ := Range.byte_leaf m (S.levels_le d) hf hi
  obtain ⟨pre, post, k₀, hus, rfl, rfl, hlast⟩ := hleaves g h _ hmem
  let k : Iova S := ⟨k₀.domain, m.guestBase + BitVec.ofNat 64 i, hwithin⟩
  have hon : Space.OnPage 1 k₀ k := ⟨rfl, hpage⟩
  have hspace : spaceAfter secondStage (Space.empty S) us k = .ends 1 (SecondStagePte.page h m.perms).bits :=
    (spaceAfter_last secondStage hus fun u hu => (u.covers_page hon).not.mpr (hlast u hu)).trans (if_pos hon)
  have hread := ((Refines.initial hempty).run secondStage hrun).walk Perm.fromBitsTruncate true k
  rw [hspace] at hread
  refine ⟨_, hread.result, ?_, rfl, ?_, ?_⟩
  · rw [hread.physical 1 _ rfl, page_frame, haligned.and_paMask h52]
    exact hbyte
  · simp [leafResult]
  · rw [leafResult, truncate_writable, page_writable, Perm.W, contains_bit _ (by decide)]

/-- Two pages, the second of them put first. -/
def backwardsRange : Intel.PageTables.MapRange := ⟨0x1000#64, 0x9000#64, 0x2000#64, Intel.PageTables.Perm.RW⟩

def backwardsIova (page : Bool) : Iova twoDomains :=
  ⟨true, if page then 0x2000#64 else 0x1000#64, by cases page <;> decide⟩

def backwardsRun : List (Update twoDomains Intel.PageTables.Perm) :=
  [.map (backwardsIova true) 1 0xa000#64 Intel.PageTables.Perm.RW, twoMap false Intel.PageTables.Perm.R,
    .map (backwardsIova false) 1 0x9000#64 Intel.PageTables.Perm.RW]

theorem backwardsRun_allowed : AllowedRun secondStage (fun _ => 0#64) backwardsRun := by
  have hreaches : ∀ (k : Iova twoDomains) mem, k.Reaches mem 1 := fun _ _ =>
    ⟨Nat.le_refl 1, Nat.le_refl 1, fun _ hl hle => absurd hl (Nat.not_lt.mpr hle)⟩
  exact ⟨⟨hreaches _ _, rfl, by decide⟩, twoMap_allowed _ _ _, ⟨hreaches _ _, rfl, by decide⟩, trivial⟩

theorem backwardsRun_mapped (g h : U64) (pte : Intel.PageTables.SecondStagePte)
    (hmem : .returns (g, h, pte) ∈ backwardsRange.leaves) :
    MappedLast backwardsRun true g h backwardsRange.perms := by
  have hleaves : backwardsRange.leaves =
      [.returns (0x1000#64, 0x9000#64, ⟨0x9003#64⟩), .returns (0x2000#64, 0xa000#64, ⟨0xa003#64⟩)] := by
    decide
  simp only [hleaves, List.mem_cons, List.not_mem_nil, or_false, Exec.returns.injEq, Prod.mk.injEq] at hmem
  rcases hmem with ⟨rfl, rfl, -⟩ | ⟨rfl, rfl, -⟩
  · exact ⟨backwardsRun.take 2, [], backwardsIova false, rfl, rfl, rfl, fun _ hu => absurd hu List.not_mem_nil⟩
  · refine ⟨[], backwardsRun.drop 1, backwardsIova true, rfl, rfl, rfl, fun u hu => ?_⟩
    rcases List.mem_pair.mp hu with rfl | rfl
    · exact fun hon => absurd hon.1 (by decide)
    · exact fun hon => absurd hon.2 (by decide)

theorem walk_backwards :
    ∃ r, Intel.PageTables.walk .second 1 0x1000#64 (backwardsRange.guestBase + BitVec.ofNat 64 0x1abc)
        (run secondStage (fun _ => 0#64) backwardsRun) = .returns (.ok r) ∧
      r.physical.toNat = backwardsRange.hostBase.toNat + 0x1abc ∧ r.level = 1 ∧ r.huge = false ∧
      r.perms.contains Intel.PageTables.Perm.W = backwardsRange.perms.contains Intel.PageTables.Perm.W :=
  have hempty : EmptyRoots twoDomains fun _ => 0#64 := fun _ _ _ => BitVec.getLsbD_zero
  range_mapped twoDomains _ hempty backwardsRun backwardsRun_allowed true backwardsRange
    ⟨rfl, rfl, by decide, by decide⟩ backwardsRun_mapped 0x1abc (by decide)

end Iommu.PageTables
