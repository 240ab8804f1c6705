import Iommu.Intel.PageTables
import Iommu.Amd.PageTables

/-! What a walk returns, entry by entry.

`e_l` is the entry that the path of the address reads at level `l`: the root at
the top level, then the frame of each entry down. Both walkers succeed and fail
exactly as those entries say, read nothing else and never panic. -/
namespace Iommu.PageTables
open Lib

section Path
variable (fetch : U64 → U64) (vaddr : U64) (levels : Nat) (root : U64)

/-- `T_l`: the table of level `l` on the path. -/
def pathTable (l : Nat) : U64 := (tree vaddr fetch).table levels root l

/-- Where the path reads at level `l`. -/
def pathAddr (l : Nat) : U64 := entryAddr vaddr l (pathTable fetch vaddr levels root l)

/-- `e_l`: the entry of level `l` on the path. -/
def pathEntry (l : Nat) : U64 := fetch (pathAddr fetch vaddr levels root l)

/-- The path starts at the root and follows the frame of each entry. -/
theorem path_tables : pathTable fetch vaddr levels root levels = root ∧
    ∀ l, l < levels → pathTable fetch vaddr levels root l =
      pathEntry fetch vaddr levels root (l + 1) &&& paMask :=
  ⟨(tree vaddr fetch).table_top levels root, fun _ hl => (tree vaddr fetch).table_next root hl⟩

theorem path_aligned (hr : Aligned root) (l : Nat) : Aligned (pathTable fetch vaddr levels root l) :=
  (tree vaddr fetch).table_inv aligned_and_paMask hr levels l

/-- Every entry above level `k` is present (bit 0) and not a leaf (bit 7). -/
def PassesTo (k : Nat) : Prop :=
  ∀ l, k < l → l ≤ levels → (pathEntry fetch vaddr levels root l).getLsbD 0 = true ∧
    (pathEntry fetch vaddr levels root l).getLsbD 7 = false

/-- The path ends on a leaf at level `k`. -/
def LeafAt (k : Nat) : Prop :=
  1 ≤ k ∧ k ≤ levels ∧ PassesTo fetch vaddr levels root k ∧
    (pathEntry fetch vaddr levels root k).getLsbD 0 = true ∧
    ((pathEntry fetch vaddr levels root k).getLsbD 7 = true ∨ k = 1)

/-- The path ends on an absent entry at level `k`. -/
def AbsentAt (k : Nat) : Prop :=
  1 ≤ k ∧ k ≤ levels ∧ PassesTo fetch vaddr levels root k ∧
    (pathEntry fetch vaddr levels root k).getLsbD 0 = false

theorem resolve_leaf_iff (k : Nat) (e : U64) :
    (tree vaddr fetch).resolve levels root = some (.ends k e) ↔
      LeafAt fetch vaddr levels root k ∧ e = pathEntry fetch vaddr levels root k :=
  (tree vaddr fetch).resolve_ends_iff levels root k e

theorem resolve_not_present_iff (k : Nat) :
    (tree vaddr fetch).resolve levels root = some (.absent k) ↔ AbsentAt fetch vaddr levels root k :=
  (tree vaddr fetch).resolve_absent_iff levels root k

end Path

/-- The whole of what a walk from `root` may return, as the entries on its path
decide it. `walk` takes the memory, since it also bounds what of it is read. -/
structure FollowsPath {P : Type} (walk : (U64 → U64) → Exec (Except WalkError (WalkResult P)))
    (fetch : U64 → U64) (vaddr : U64) (levels : Nat) (root : U64) : Prop where
  /-- It returns: no index is out of range, no addition wraps, the loop does not fall through. -/
  total : ∃ out, walk fetch = .returns out
  ok_iff : ∀ k, (∃ r, walk fetch = .returns (.ok r) ∧ r.level = k) ↔
    LeafAt fetch vaddr levels root k
  ok_value : ∀ r, walk fetch = .returns (.ok r) →
    r.physical = (pathEntry fetch vaddr levels root r.level &&& paMask) ||| offsetOf vaddr r.level ∧
      r.huge = decide ((pathEntry fetch vaddr levels root r.level).getLsbD 7 = true ∧ r.level > 1)
  not_present_iff : ∀ k, walk fetch = .returns (.error (.notPresent k)) ↔
    AbsentAt fetch vaddr levels root k
  no_wrap : ∀ l, 1 ≤ l → l ≤ levels →
    (pathTable fetch vaddr levels root l).toNat + 8 * (slotOf vaddr l).toNat < 2 ^ 64
  /-- It reads the entries on its path and no others. -/
  local_reads : ∀ fetch', (∀ l, 1 ≤ l → l ≤ levels →
    fetch' (pathAddr fetch vaddr levels root l) = fetch (pathAddr fetch vaddr levels root l)) →
      walk fetch' = walk fetch

section Report
variable {P : Type} (permsOf : U64 → P) (fetch : U64 → U64) (vaddr : U64) (levels : Nat) (root : U64)

theorem report_ok_iff (s : Option (Stop U64)) (r : WalkResult P) :
    report permsOf vaddr s = .returns (.ok r) ↔
      ∃ e, s = some (.ends r.level e) ∧ r = leafResult permsOf vaddr r.level e := by
  cases s with
  | none => simp [report]
  | some stop =>
    cases stop with
    | absent k => simp [report]
    | ends k e =>
      simp only [report, Exec.returns.injEq, Except.ok.injEq, Option.some.injEq, Stop.ends.injEq]
      constructor
      · intro h
        subst h
        exact ⟨e, ⟨rfl, rfl⟩, rfl⟩
      · rintro ⟨e', ⟨hk, he⟩, hr⟩
        rw [hr, hk, he]

theorem report_not_present_iff (s : Option (Stop U64)) (k : Nat) :
    report permsOf vaddr s = .returns (.error (.notPresent k)) ↔ s = some (.absent k) := by
  cases s with
  | none => simp [report]
  | some stop => cases stop <;> simp [report]

/-- What the walk returns on success, and only then. -/
theorem report_leaf_iff (r : WalkResult P) :
    report permsOf vaddr ((tree vaddr fetch).resolve levels root) = .returns (.ok r) ↔
      LeafAt fetch vaddr levels root r.level ∧
        r = leafResult permsOf vaddr r.level (pathEntry fetch vaddr levels root r.level) := by
  rw [report_ok_iff]
  constructor
  · intro ⟨e, he, hr⟩
    obtain ⟨hleaf, rfl⟩ := (resolve_leaf_iff fetch vaddr levels root r.level e).mp he
    exact ⟨hleaf, hr⟩
  · intro ⟨hleaf, hr⟩
    exact ⟨_, (resolve_leaf_iff fetch vaddr levels root r.level _).mpr ⟨hleaf, rfl⟩, hr⟩

/-- The walk of either crate, past its width check. -/
theorem walkWith_follows {widthChecked : Bool} (h : 1 ≤ levels) (h5 : levels ≤ 5) (hr : Aligned root)
    (hw : widthChecked = true → vaddr >>> (shiftOf levels + 9) = 0#64) :
    FollowsPath (fun fetch => walkWith permsOf vaddr fetch widthChecked levels root)
      fetch vaddr levels root := by
  have hwalk : ∀ fetch, walkWith permsOf vaddr fetch widthChecked levels root =
      report permsOf vaddr ((tree vaddr fetch).resolve levels root) :=
    fun fetch => walkWith_eq permsOf vaddr fetch h h5 root hr hw
  refine ⟨?_, fun k => ?_, fun r hok => ?_, fun k => ?_, fun l _ hl => ?_, fun fetch' hf => ?_⟩
  · obtain ⟨s, hs⟩ := (tree vaddr fetch).resolve_total h root
    rw [hwalk, hs]
    cases s <;> exact ⟨_, rfl⟩
  · simp only [hwalk, report_leaf_iff]
    constructor
    · intro ⟨r, ⟨hleaf, _⟩, hk⟩
      exact hk ▸ hleaf
    · intro hleaf
      exact ⟨leafResult permsOf vaddr k (pathEntry fetch vaddr levels root k), ⟨hleaf, rfl⟩, rfl⟩
  · rw [hwalk, report_leaf_iff] at hok
    obtain ⟨_, hres⟩ := hok
    exact ⟨by rw [hres]; rfl, by rw [hres]; rfl⟩
  · rw [hwalk, report_not_present_iff, resolve_not_present_iff]
  · exact entryAddr_no_wrap vaddr (by omega) (path_aligned fetch vaddr levels root hr l)
  · rw [hwalk, hwalk, (tree vaddr fetch).resolve_congr (tree vaddr fetch') rfl rfl rfl levels root hf]

end Report

/-- **Both walkers are the descent of the tree in memory**: they succeed and fail
exactly as the entries on the path say, whatever the memory holds, without a
panic and without reading anything else. -/
theorem walk_follows_path (fetch : U64 → U64) (levels : Nat) (h : 1 ≤ levels) (h5 : levels ≤ 5)
    (root : U64) (hr : Aligned root) (vaddr : U64) :
    (∀ stage, (stage = .second → vaddr >>> (shiftOf levels + 9) = 0#64) →
      FollowsPath (Intel.PageTables.walk stage levels root vaddr) fetch vaddr levels root) ∧
    (∀ format, (format = .v2 → vaddr >>> (shiftOf levels + 9) = 0#64) →
      FollowsPath (Amd.PageTables.walk format levels root vaddr) fetch vaddr levels root) :=
  ⟨fun _ hw => walkWith_follows _ fetch vaddr levels root h h5 hr (fun hc => hw (eq_of_beq hc)),
    fun _ hw => walkWith_follows _ fetch vaddr levels root h h5 hr (fun hc => hw (eq_of_beq hc))⟩

/-- The tree of the module documentation: three tables below 0x1000, then a 4 KiB page. -/
def docTree (paddr : U64) : U64 :=
  if paddr = 0x1000#64 then 0x2003#64 else if paddr = 0x2000#64 then 0x3003#64
  else if paddr = 0x3000#64 then 0x4003#64 else if paddr = 0x4000#64 then 0x12345003#64 else 0#64

theorem docTree_follows_path :
    FollowsPath (Intel.PageTables.walk .second 4 0x1000#64 0x123#64) docTree 0x123#64 4 0x1000#64 ∧
      FollowsPath (Amd.PageTables.walk .v2 4 0x1000#64 0x123#64) docTree 0x123#64 4 0x1000#64 :=
  ⟨(walk_follows_path docTree 4 (by decide) (by decide) 0x1000#64 rfl 0x123#64).1 .second
      (fun _ => by decide),
    (walk_follows_path docTree 4 (by decide) (by decide) 0x1000#64 rfl 0x123#64).2 .v2
      (fun _ => by decide)⟩

end Iommu.PageTables
