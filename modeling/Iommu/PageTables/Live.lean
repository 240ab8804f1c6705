import Iommu.PageTables.Isolation

/-! Walks among updates.

A walk reads one entry a level, and between two reads the tables may be updated, for its
own domain or another. So the closure that it reads through is a memory of each moment
(`walkLive`). When nothing is put over a link while the walk is under way, its answer is
the one that the address space of some moment of the walk gives: that of its last read
(`live_walk_atomic`). -/
namespace Iommu.PageTables
open Lib

/-- The walks of the crates, among updates. -/
def Intel.walkLive (stage : Intel.PageTables.Stage) (levels : Nat) (root vaddr : U64) (fetch : Nat → U64 → U64) :
    Exec (Except WalkError (WalkResult Intel.PageTables.Perm)) :=
  PageTables.walkLive Intel.PageTables.Perm.fromBitsTruncate vaddr fetch (stage == .second) levels root

def Amd.walkLive (format : Amd.PageTables.Format) (levels : Nat) (root vaddr : U64) (fetch : Nat → U64 → U64) :
    Exec (Except WalkError (WalkResult Amd.PageTables.Perm)) :=
  PageTables.walkLive Amd.PageTables.Perm.fromBitsRetain vaddr fetch (format == .v2) levels root

/-- When memory does not change they are the walks. -/
theorem walkLive_const (vaddr : U64) (fetch : U64 → U64) (levels : Nat) (root : U64) :
    (∀ stage, Intel.walkLive stage levels root vaddr (fun _ => fetch) =
      Intel.PageTables.walk stage levels root vaddr fetch) ∧
    ∀ format, Amd.walkLive format levels root vaddr (fun _ => fetch) =
      Amd.PageTables.walk format levels root vaddr fetch :=
  ⟨fun _ => rfl, fun _ => rfl⟩

/-! ### Links that stay -/

/-- An entry that links a table. -/
def IsLink (e : U64) : Prop := e.getLsbD 0 = true ∧ e.getLsbD 7 = false

section Links
variable {D Q P : Type} {S : Domains D} (B : Builders Q P)

/-- Nothing is put over a link. -/
def Update.KeepsLinks (mem : U64 → U64) : Update S Q → Prop
  | map k l _ _ => ¬IsLink (mem (k.slot mem l))
  | unmap k l => ¬IsLink (mem (k.slot mem l))
  | link k l _ _ => ¬IsLink (mem (k.slot mem (l + 1)))
  | mark _ _ _ => True
  | other _ _ => True

/-- A link on a path stays one, to the same table. -/
theorem Update.link_stays {mem : U64 → U64} {u : Update S Q} (h : u.Allowed mem) (hk : u.KeepsLinks mem)
    {k : Iova S} {l : Nat} (hreach : k.Reaches mem l) (hlink : IsLink (mem (k.slot mem l))) :
    IsLink (u.apply B mem (k.slot mem l)) ∧
      u.apply B mem (k.slot mem l) &&& paMask = mem (k.slot mem l) &&& paMask := by
  by_cases hplace : k.slot mem l = u.place mem
  · cases u with
    | mark k' l' m =>
      have happly : (Update.mark k' l' m : Update S Q).apply B mem (k.slot mem l) = m.mark (mem (k.slot mem l)) := by
        rw [hplace]
        exact Function.update_self _ _ _
      rw [happly, IsLink, m.present, m.size, m.frame]
      exact ⟨hlink, rfl⟩
    | other a value => exact absurd hplace (h k l hreach)
    | _ =>
      rw [hplace] at hlink
      exact absurd hlink hk
  · have hsame : u.apply B mem (k.slot mem l) = mem (k.slot mem l) := Function.update_of_ne hplace _ mem
    rw [hsame]
    exact ⟨hlink, rfl⟩

/-- A path that comes down to a table still does after the update. -/
theorem Iova.Reaches.stays {mem : U64 → U64} {u : Update S Q} (h : u.Allowed mem) (hk : u.KeepsLinks mem)
    {k : Iova S} {l : Nat} (hreach : k.Reaches mem l) :
    k.Reaches (u.apply B mem) l ∧ k.table (u.apply B mem) l = k.table mem l := by
  have hsent : Descent.SentAlong (tree k.addr mem) (tree k.addr (u.apply B mem)) (S.levels k.domain)
      (S.root k.domain) l := by
    intro m hm hle
    have habove : k.Reaches mem m := ⟨by omega, hle, fun j hj hj' => hreach.2.2 j (by omega) hj'⟩
    obtain ⟨hlink, hframe⟩ := u.link_stays B h hk habove (hreach.2.2 m hm hle)
    exact ⟨hlink.1, hlink.2, hframe⟩
  have hshape : Descent.Shape (tree k.addr mem) (tree k.addr (u.apply B mem)) := ⟨rfl, rfl, rfl⟩
  exact ⟨⟨hreach.1, hreach.2.1, hsent.passes hshape⟩, hsent.table hshape (Nat.le_refl l)⟩

/-- The memory after the first updates of a run. -/
def moment (mem : U64 → U64) (us : List (Update S Q)) (i : Nat) : U64 → U64 := run B mem (us.take i)

/-- From one moment to another nothing is put over a link. -/
def LinksStay (mem : U64 → U64) (us : List (Update S Q)) (i i' : Nat) : Prop :=
  ∀ j, i ≤ j → j < i' → ∀ hj : j < us.length, us[j].KeepsLinks (moment B mem us j)

theorem moment_allowed {mem : U64 → U64} {us : List (Update S Q)} (hrun : AllowedRun B mem us) (i : Nat) :
    AllowedRun B mem (us.take i) := by
  rw [← List.take_append_drop i us, allowedRun_append] at hrun
  exact hrun.1

/-- Each moment is the update of the one before. -/
theorem moment_succ {mem : U64 → U64} {us : List (Update S Q)} (hrun : AllowedRun B mem us) {i : Nat}
    (hi : i < us.length) : us[i].Allowed (moment B mem us i) ∧
      moment B mem us (i + 1) = us[i].apply B (moment B mem us i) := by
  have htake : us.take (i + 1) = us.take i ++ [us[i]] := List.take_succ_eq_append_getElem hi
  have hnext := moment_allowed B hrun (i + 1)
  rw [htake, allowedRun_append] at hnext
  refine ⟨hnext.2.1, ?_⟩
  rw [moment, htake, run_append]
  rfl

/-- While links stay, so does the way to a table. -/
theorem Iova.Reaches.until {mem : U64 → U64} {us : List (Update S Q)} (hrun : AllowedRun B mem us) {k : Iova S}
    {l i i' : Nat} (hle : i ≤ i') (hstay : LinksStay B mem us i i') (hreach : k.Reaches (moment B mem us i) l) :
    k.Reaches (moment B mem us i') l ∧ k.table (moment B mem us i') l = k.table (moment B mem us i) l := by
  induction i', hle using Nat.le_induction with
  | base => exact ⟨hreach, rfl⟩
  | succ j hj ih =>
    obtain ⟨hreach', htable⟩ := ih fun m hm hmj => hstay m hm (Nat.lt_succ_of_lt hmj)
    by_cases hlen : j < us.length
    · obtain ⟨hallowed, hnext⟩ := moment_succ B hrun hlen
      obtain ⟨hstays, hsame⟩ := hreach'.stays B hallowed (hstay j hj (Nat.lt_succ_self j) hlen)
      rw [hnext]
      exact ⟨hstays, hsame.trans htable⟩
    · have hend : moment B mem us (j + 1) = moment B mem us j := by
        rw [moment, moment, List.take_of_length_le (by omega), List.take_of_length_le (by omega)]
      rw [hend]
      exact ⟨hreach', htable⟩

variable {B}

/-- The walk is where the path of each moment is. -/
theorem live_reaches {mem : U64 → U64} {us : List (Update S Q)} (hrun : AllowedRun B mem us) (k : Iova S)
    {n : Nat → Nat} (hn : ∀ l m, 1 ≤ l → l ≤ m → m ≤ S.levels k.domain → n m ≤ n l)
    (hstay : LinksStay B mem us (n (S.levels k.domain)) (n 1)) {j : Nat} (hj : 1 ≤ j) (hle : j ≤ S.levels k.domain)
    (hpass : (liveTree k.addr fun l => moment B mem us (n l)).Passes (S.levels k.domain) (S.root k.domain) j) :
    k.Reaches (moment B mem us (n j)) j ∧ k.table (moment B mem us (n j)) j =
      (liveTree k.addr fun l => moment B mem us (n l)).table (S.levels k.domain) (S.root k.domain) j := by
  have htop : k.Reaches (moment B mem us (n (S.levels k.domain))) (S.levels k.domain) :=
    ⟨S.levels_pos _, Nat.le_refl _, fun l hl hl' => absurd hl (Nat.not_lt.mpr hl')⟩
  refine Nat.decreasingInduction' (fun l hl hjl ih => ?_) hle ⟨htop, ?_⟩
  · obtain ⟨hreach, htable⟩ := ih
    -- the entry that the walk reads above is the one of the path at that moment
    have hlink : (liveTree k.addr fun l => moment B mem us (n l)).entry (S.levels k.domain) (S.root k.domain) (l + 1) =
        moment B mem us (n (l + 1)) (k.slot (moment B mem us (n (l + 1))) (l + 1)) := by
      show moment B mem us (n (l + 1)) (entryAddr k.addr (l + 1) _) = _
      rw [← htable]
      rfl
    have hsends := hpass (l + 1) (by omega) hl
    have hnext := (liveTree k.addr fun l => moment B mem us (n l)).table_next (S.root k.domain) hl
    rw [hlink] at hsends hnext
    have hterm : ¬(trees S).Terminal (l + 1)
        (moment B mem us (n (l + 1)) (k.slot (moment B mem us (n (l + 1))) (l + 1))) := by
      intro ht
      rcases ht hsends.1 with hleaf | hone
      · exact absurd (hleaf.symm.trans hsends.2) (by decide)
      · omega
    obtain ⟨hbelow, hbelowTable⟩ := (reaches_iff.mpr hreach).below hterm
    have hmono : n (l + 1) ≤ n l := hn l (l + 1) (by omega) (Nat.le_succ l) hl
    have hwindow : LinksStay B mem us (n (l + 1)) (n l) := fun i hi hi' =>
      hstay i (Nat.le_trans (hn (l + 1) _ (by omega) hl (Nat.le_refl _)) hi)
        (Nat.lt_of_lt_of_le hi' (hn 1 l (Nat.le_refl 1) (by omega) (Nat.le_of_lt hl)))
    obtain ⟨hreaches, hkept⟩ := (reaches_iff.mp hbelow).until B hrun hmono hwindow
    exact ⟨hreaches, hkept.trans (hbelowTable.trans hnext.symm)⟩
  · exact ((tree k.addr _).table_top _ _).trans (Descent.table_top _ _ _).symm

/-- The walk stops on what the path of its last moment stops on. -/
theorem live_stops {mem : U64 → U64} {us : List (Update S Q)} (hrun : AllowedRun B mem us) (k : Iova S)
    {n : Nat → Nat} (hn : ∀ l m, 1 ≤ l → l ≤ m → m ≤ S.levels k.domain → n m ≤ n l)
    (hstay : LinksStay B mem us (n (S.levels k.domain)) (n 1)) {s : Stop U64}
    (hs : (liveTree k.addr fun l => moment B mem us (n l)).StopsAt (S.levels k.domain) (S.root k.domain) s) :
    (trees S).Stops (moment B mem us (n s.level)) k s := by
  obtain ⟨hreach, htable⟩ := live_reaches hrun k hn hstay hs.passes.1 hs.level_le hs.passes.2
  have hentry : (tree k.addr (moment B mem us (n s.level))).entry (S.levels k.domain) (S.root k.domain) s.level =
      (liveTree k.addr fun l => moment B mem us (n l)).entry (S.levels k.domain) (S.root k.domain) s.level := by
    show moment B mem us (n s.level) (entryAddr k.addr s.level (k.table _ s.level)) = _
    rw [htable]
    rfl
  obtain ⟨hone, hle, hpass⟩ := hreach
  cases s with
  | absent j => exact ⟨hone, hle, hpass, (congrArg (fun e : U64 => e.getLsbD 0) hentry).trans hs.2.2.2⟩
  | ends j e =>
    obtain ⟨⟨_, _, _, hp, hl⟩, he⟩ := hs
    refine ⟨⟨hone, hle, hpass, (congrArg (fun e : U64 => e.getLsbD 0) hentry).trans hp, ?_⟩, he.trans hentry.symm⟩
    exact hl.imp_left (congrArg (fun e : U64 => e.getLsbD 7) hentry).trans

variable [DecidableEq D]

/-- A walk among updates answers as one moment of it. -/
theorem walkLive_moment {mem : U64 → U64} (hempty : EmptyRoots S mem) {us : List (Update S Q)}
    (hrun : AllowedRun B mem us) (k : Iova S) {n : Nat → Nat}
    (hn : ∀ l m, 1 ≤ l → l ≤ m → m ≤ S.levels k.domain → n m ≤ n l)
    (hstay : LinksStay B mem us (n (S.levels k.domain)) (n 1)) (permsOf : U64 → P) (widthChecked : Bool) :
    ∃ i, n (S.levels k.domain) ≤ i ∧ i ≤ n 1 ∧
      Answers permsOf k.addr (spaceAfter B (Space.empty S) (us.take i) k)
        (walkLive permsOf k.addr (fun l => moment B mem us (n l)) widthChecked (S.levels k.domain)
          (S.root k.domain)) := by
  obtain ⟨s, hs⟩ := (liveTree k.addr fun l => moment B mem us (n l)).resolve_total (S.levels_pos k.domain)
    (S.root k.domain)
  have hstops := ((liveTree k.addr fun l => moment B mem us (n l)).resolve_iff _ _ s).mp hs
  have hone := hstops.passes.1
  have hle := hstops.level_le
  have hR := (Refines.initial hempty).run B (moment_allowed B hrun (n s.level))
  have hspace : spaceAfter B (Space.empty S) (us.take (n s.level)) k = s :=
    Descent.stopsAt_unique _ (hR.holds.stops k) (live_stops hrun k hn hstay hstops)
  refine ⟨n s.level, hn _ _ hone hle (Nat.le_refl _), hn _ _ (Nat.le_refl 1) hone hle, ?_, ?_⟩
  · rw [walkLive_eq permsOf k.addr _ (S.levels_pos _) (S.levels_le _) _ (S.root_aligned _) fun _ => k.shift, hs,
      hspace]
  · exact (hR.walk permsOf widthChecked k).physical

end Links

/-- **Walks are atomic among updates**: a walk whose reads fall between the updates of a
run, level by level, answers what the address space says at one moment between its first
read and its last, as long as nothing is put over a link in that time. -/
theorem live_walk_atomic {D : Type} [DecidableEq D] (S : Domains D) (mem : U64 → U64) (hempty : EmptyRoots S mem)
    (k : Iova S) (n : Nat → Nat) (hn : ∀ l m, 1 ≤ l → l ≤ m → m ≤ S.levels k.domain → n m ≤ n l) :
    (∀ us, AllowedRun secondStage mem us → LinksStay secondStage mem us (n (S.levels k.domain)) (n 1) →
      ∃ i, n (S.levels k.domain) ≤ i ∧ i ≤ n 1 ∧
        Answers Intel.PageTables.Perm.fromBitsTruncate k.addr
          (spaceAfter secondStage (Space.empty S) (us.take i) k)
          (Intel.walkLive .second (S.levels k.domain) (S.root k.domain) k.addr
            fun l => moment secondStage mem us (n l))) ∧
    (∀ us, AllowedRun version2 mem us → LinksStay version2 mem us (n (S.levels k.domain)) (n 1) →
      ∃ i, n (S.levels k.domain) ≤ i ∧ i ≤ n 1 ∧
        Answers Amd.PageTables.Perm.fromBitsRetain k.addr (spaceAfter version2 (Space.empty S) (us.take i) k)
          (Amd.walkLive .v2 (S.levels k.domain) (S.root k.domain) k.addr fun l => moment version2 mem us (n l))) :=
  ⟨fun _ hrun hstay => walkLive_moment hempty hrun k hn hstay _ true,
    fun _ hrun hstay => walkLive_moment hempty hrun k hn hstay _ true⟩

/-- The page is put between the two reads of the walk. -/
theorem oneRun_linksStay {Q P : Type} (B : Builders Q P) (rights : Q)
    (habsent : (moment B (fun _ => 0#64) (oneRun rights) 1 (oneIova.slot (moment B (fun _ => 0#64) (oneRun rights) 1)
      1)).getLsbD 0 = false) : LinksStay B (fun _ => 0#64) (oneRun rights) 1 2 := by
  intro j hj hj' hlen
  obtain rfl : j = 1 := by omega
  exact fun hlink => absurd (hlink.1.symm.trans habsent) (by decide)

theorem oneRun_live :
    (∃ i, 1 ≤ i ∧ i ≤ 2 ∧ Answers Intel.PageTables.Perm.fromBitsTruncate 0x5123#64
      (spaceAfter secondStage (Space.empty oneDomain) ((oneRun Intel.PageTables.Perm.RW).take i) oneIova)
      (Intel.walkLive .second 2 0x1000#64 0x5123#64
        fun l => moment secondStage (fun _ => 0#64) (oneRun Intel.PageTables.Perm.RW) (3 - l))) ∧
    (∃ i, 1 ≤ i ∧ i ≤ 2 ∧ Answers Amd.PageTables.Perm.fromBitsRetain 0x5123#64
      (spaceAfter version2 (Space.empty oneDomain) ((oneRun (true, true)).take i) oneIova)
      (Amd.walkLive .v2 2 0x1000#64 0x5123#64
        fun l => moment version2 (fun _ => 0#64) (oneRun (true, true)) (3 - l))) :=
  have hlive := live_walk_atomic oneDomain (fun _ => 0#64) oneDomain_empty oneIova (fun l => 3 - l)
    fun _ _ _ hlm _ => Nat.sub_le_sub_left hlm 3
  ⟨hlive.1 _ (oneRun_allowed secondStage _ ⟨rfl, rfl⟩) (oneRun_linksStay secondStage _ (by decide)),
    hlive.2 _ (oneRun_allowed version2 _ ⟨rfl, rfl⟩) (oneRun_linksStay version2 _ (by decide))⟩

end Iommu.PageTables
