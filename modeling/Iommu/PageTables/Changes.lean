import Iommu.Lib.Change
import Iommu.PageTables.Laws

/-! Entries that change under a walk's feet.

These hold of any memory at all, whether its tables are a tree or not. Marking entries
accessed or dirty, any of them in any order, leaves every translation what it was but
for the marks on its own leaf (`marks_kept`). Clearing entries never sends an address
elsewhere: what still translates translates as before (`cleared_walk`). -/
namespace Iommu.PageTables
open Lib

/-- The stop of a path, for the walk that passes its width check. -/
theorem walkWith_stop {P : Type} (permsOf : U64 → P) (v : U64) (fetch : U64 → U64) {widthChecked : Bool}
    {levels : Nat} (h : 1 ≤ levels) (h5 : levels ≤ 5) {root : U64} (hr : Aligned root)
    (hw : widthChecked = true → v >>> (shiftOf levels + 9) = 0#64) {s : Stop U64}
    (hs : (tree v fetch).StopsAt levels root s) :
    walkWith permsOf v fetch widthChecked levels root = report permsOf v (some s) := by
  rw [walkWith_eq permsOf v fetch h h5 root hr hw, ((tree v fetch).resolve_iff levels root s).mpr hs]

theorem tree_stops (v : U64) (fetch : U64 → U64) {levels : Nat} (h : 1 ≤ levels) (root : U64) :
    ∃ s, (tree v fetch).StopsAt levels root s := by
  obtain ⟨s, hs⟩ := (tree v fetch).resolve_total h root
  exact ⟨s, ((tree v fetch).resolve_iff levels root s).mp hs⟩

/-! ### Marks -/

section Marks
open Intel.PageTables

/-- The bits that mark an entry. -/
def markBits (accessed dirty : Bool) : U64 :=
  (if accessed then Perm.ACCESSED.bits else 0#64) ||| (if dirty then Perm.DIRTY.bits else 0#64)

theorem withAccessedDirty_bits (pte : SecondStagePte) (accessed dirty : Bool) :
    (pte.withAccessedDirty accessed dirty).bits = pte.bits ||| markBits accessed dirty := by
  cases accessed <;> cases dirty <;> simp [SecondStagePte.withAccessedDirty, markBits, BitVec.or_assoc]

theorem markBits_apart (accessed dirty : Bool) : (markBits accessed dirty).getLsbD 0 = false ∧
    (markBits accessed dirty).getLsbD 7 = false ∧ markBits accessed dirty &&& paMask = 0#64 := by
  cases accessed <;> cases dirty <;> decide

/-- An entry of a table marked where it is. -/
structure MarkWrite where
  addr : U64
  accessed : Bool
  dirty : Bool

/-- The memory after marks on any entries in any order. -/
def markAll (fetch : U64 → U64) : List MarkWrite → U64 → U64
  | [] => fetch
  | m :: ms => markAll (fun a => if a = m.addr then
      ((⟨fetch a⟩ : SecondStagePte).withAccessedDirty m.accessed m.dirty).bits else fetch a) ms

/-- What the marks add to the entry at an address. -/
def marksAt : List MarkWrite → U64 → U64
  | [], _ => 0#64
  | m :: ms, a => (if a = m.addr then markBits m.accessed m.dirty else 0#64) ||| marksAt ms a

theorem markAll_eq (fetch : U64 → U64) (ms : List MarkWrite) (a : U64) :
    markAll fetch ms a = fetch a ||| marksAt ms a := by
  induction ms generalizing fetch with
  | nil => exact BitVec.or_zero.symm
  | cons m ms ih =>
    rw [markAll, ih, marksAt, ← BitVec.or_assoc]
    congr 1
    by_cases ha : a = m.addr
    · rw [if_pos ha, if_pos ha, withAccessedDirty_bits]
    · rw [if_neg ha, if_neg ha, BitVec.or_zero]

/-- Marks are bits 8 and 9. -/
theorem marksAt_and (ms : List MarkWrite) (a : U64) : marksAt ms a &&& 0x300#64 = marksAt ms a := by
  induction ms with
  | nil => exact BitVec.zero_and
  | cons m ms ih =>
    have hmark : ∀ accessed dirty, markBits accessed dirty &&& 0x300#64 = markBits accessed dirty := by decide
    rw [marksAt, BitVec.and_or_distrib_right, ih]
    congr 1
    split
    · exact hmark _ _
    · rfl

/-- None of them is what a mask without those bits keeps. -/
theorem marksAt_apart (ms : List MarkWrite) (a : U64) {mask : U64} (h : 0x300#64 &&& mask = 0#64) :
    marksAt ms a &&& mask = 0#64 := by
  rw [← marksAt_and, BitVec.and_assoc, h, BitVec.and_zero]

theorem marksAt_bit (ms : List MarkWrite) (a : U64) {i : Nat} (h : (0x300#64 : U64).getLsbD i = false) :
    (marksAt ms a).getLsbD i = false := by
  rw [← marksAt_and, BitVec.getLsbD_and, h, Bool.and_false]

theorem markAll_alike (fetch : U64 → U64) (ms : List MarkWrite) (v : U64) :
    Descent.Alike (tree v fetch) (tree v (markAll fetch ms)) where
  present := rfl
  leaf := rfl
  next := rfl
  read_present l t := by
    simp only [tree_present, tree_read, markAll_eq, BitVec.getLsbD_or, marksAt_bit ms _ (i := 0) rfl, Bool.or_false]
  read_leaf l t := by
    simp only [tree_leaf, tree_read, markAll_eq, BitVec.getLsbD_or, marksAt_bit ms _ (i := 7) rfl, Bool.or_false]
  read_next l t := by
    simp only [tree_next, tree_read, markAll_eq, BitVec.and_or_distrib_right]
    rw [marksAt_apart ms _ rfl, BitVec.or_zero]

theorem truncate_marks (e : U64) (ms : List MarkWrite) (a : U64) :
    Perm.fromBitsTruncate (e ||| marksAt ms a) = ⟨(Perm.fromBitsTruncate e).bits ||| marksAt ms a⟩ := by
  have hall : marksAt ms a &&& Perm.all.bits = marksAt ms a := by
    rw [← marksAt_and, BitVec.and_assoc]
    rfl
  rw [Perm.fromBitsTruncate, BitVec.and_or_distrib_right, hall]
  rfl

/-- A marked leaf translates as it did. -/
theorem leafResult_marks (v : U64) (k : Nat) (e : U64) (ms : List MarkWrite) (a : U64) :
    leafResult Perm.fromBitsTruncate v k (e ||| marksAt ms a) =
      { leafResult Perm.fromBitsTruncate v k e with perms := ⟨(Perm.fromBitsTruncate e).bits ||| marksAt ms a⟩ } := by
  have hframe : (e ||| marksAt ms a) &&& paMask = e &&& paMask := by
    rw [BitVec.and_or_distrib_right, marksAt_apart ms a rfl, BitVec.or_zero]
  have hsize : (e ||| marksAt ms a).getLsbD 7 = e.getLsbD 7 := by
    rw [BitVec.getLsbD_or, marksAt_bit ms a rfl, Bool.or_false]
  rw [leafResult, hframe, hsize, truncate_marks]
  rfl

/-- **Marks change no translation**: whichever entries of whatever tables are marked
accessed or dirty, every address is answered as before, but for the marks on the leaf
that it ends on. -/
theorem marks_kept (stage : Stage) (levels : Nat) (h : 1 ≤ levels) (h5 : levels ≤ 5) (root : U64) (hr : Aligned root)
    (v : U64) (fetch : U64 → U64) (ms : List MarkWrite) :
    (∀ err, walk stage levels root v fetch = .returns (.error err) →
      walk stage levels root v (markAll fetch ms) = .returns (.error err)) ∧
    (∀ r, walk stage levels root v fetch = .returns (.ok r) →
      walk stage levels root v (markAll fetch ms) = .returns (.ok { r with perms :=
        ⟨r.perms.bits ||| marksAt ms (pathAddr fetch v levels root r.level)⟩ })) := by
  by_cases hw : (stage == .second) = true → v >>> (shiftOf levels + 9) = 0#64
  · obtain ⟨s, hs⟩ := tree_stops v fetch h root
    have hs' := (markAll_alike fetch ms v).stopsAt hs
    rw [walk, walk, walkWith_stop _ v fetch h h5 hr hw hs, walkWith_stop _ v (markAll fetch ms) h h5 hr hw hs']
    cases s with
    | absent k => exact ⟨fun err he => he, fun r hok => by cases hok⟩
    | ends k e =>
      constructor
      · intro err he
        cases he
      intro r hok
      cases hok
      obtain ⟨-, rfl⟩ := hs
      have hread : (tree v (markAll fetch ms)).read k ((tree v fetch).table levels root k) =
          (tree v fetch).entry levels root k ||| marksAt ms (pathAddr fetch v levels root k) :=
        markAll_eq fetch ms _
      rw [Descent.reread, hread]
      exact congrArg (fun r => Exec.returns (Except.ok r)) (leafResult_marks v k _ ms _)
  · obtain ⟨hc, hne⟩ := Classical.not_imp.mp hw
    rw [walk, walk, hc, walkWith_too_large _ v fetch h h5 root hne, walkWith_too_large _ v _ h h5 root hne]
    exact ⟨fun err he => he, fun r hok => by cases hok⟩

/-- The leaf of the module documentation's tree, marked twice. -/
def docMarks : List MarkWrite := [⟨0x4000#64, true, false⟩, ⟨0x1000#64, true, false⟩, ⟨0x4000#64, true, true⟩]

theorem docTree_marked : walk .second 4 0x1000#64 0x123#64 (markAll docTree docMarks) =
    .returns (.ok ⟨0x12345123#64, 1, ⟨0x303#64⟩, false⟩) :=
  (marks_kept .second 4 (by decide) (by decide) 0x1000#64 rfl 0x123#64 docTree docMarks).2
    ⟨0x12345123#64, 1, ⟨0x3#64⟩, false⟩ rfl

end Marks

/-! ### Cleared entries -/

/-- What the memory still holds present it holds as it was. -/
def ClearedFrom (fetch fetch' : U64 → U64) : Prop := ∀ a, (fetch' a).getLsbD 0 = true → fetch' a = fetch a

theorem ClearedFrom.tree {fetch fetch' : U64 → U64} (h : ClearedFrom fetch fetch') (v : U64) :
    Descent.Cleared (tree v fetch) (tree v fetch') where
  present := rfl
  leaf := rfl
  next := rfl
  read _ _ hp := h _ hp

/-- What clearing entries does to a walk. -/
structure Keeps {P : Type} (walk : (U64 → U64) → Exec (Except WalkError (WalkResult P))) (fetch fetch' : U64 → U64) :
    Prop where
  /-- What still translates translates as before. -/
  ok : ∀ r, walk fetch' = .returns (.ok r) → walk fetch = .returns (.ok r)
  /-- What does not now stopped no higher before. -/
  absent : ∀ k, walk fetch' = .returns (.error (.notPresent k)) →
    (∃ r, walk fetch = .returns (.ok r) ∧ r.level ≤ k) ∨
      ∃ j ≤ k, walk fetch = .returns (.error (.notPresent j))

theorem walkWith_cleared {P : Type} (permsOf : U64 → P) (v : U64) {fetch fetch' : U64 → U64}
    (hc : ClearedFrom fetch fetch') (widthChecked : Bool) {levels : Nat} (h : 1 ≤ levels) (h5 : levels ≤ 5)
    {root : U64} (hr : Aligned root) : Keeps (fun fetch => walkWith permsOf v fetch widthChecked levels root) fetch fetch' := by
  by_cases hw : widthChecked = true → v >>> (shiftOf levels + 9) = 0#64
  · obtain ⟨s, hs⟩ := tree_stops v fetch h root
    obtain ⟨s', hs'⟩ := tree_stops v fetch' h root
    have hwalk := walkWith_stop permsOf v fetch h h5 hr hw hs
    have hwalk' := walkWith_stop permsOf v fetch' h h5 hr hw hs'
    constructor
    · intro r hok
      obtain ⟨e, he, hres⟩ := (report_ok_iff permsOf v _ r).mp (hwalk'.symm.trans hok)
      obtain rfl := Option.some.inj he
      rw [walkWith_stop permsOf v fetch h h5 hr hw ((hc.tree v).ends hs'), hres]
      rfl
    · intro k hk
      obtain rfl := Option.some.inj ((report_not_present_iff permsOf v _ k).mp (hwalk'.symm.trans hk))
      have hle := (hc.tree v).absent hs' hs
      cases s with
      | absent j => exact .inr ⟨j, hle, hwalk⟩
      | ends j e => exact .inl ⟨leafResult permsOf v j e, hwalk, hle⟩
  · obtain ⟨hchecked, hne⟩ := Classical.not_imp.mp hw
    have hlarge := fun fetch => walkWith_too_large permsOf v fetch h h5 root hne
    constructor
    · intro r hok
      rw [hchecked, hlarge] at hok
      cases hok
    · intro k hk
      rw [hchecked, hlarge] at hk
      cases hk

/-- **Clearing entries redirects nothing**: in both crates, whichever entries of whatever
tables are cleared, an address that still translates translates as it did. -/
theorem cleared_walk (fetch fetch' : U64 → U64) (hc : ClearedFrom fetch fetch') (levels : Nat) (h : 1 ≤ levels)
    (h5 : levels ≤ 5) (root : U64) (hr : Aligned root) (v : U64) :
    (∀ stage, Keeps (Intel.PageTables.walk stage levels root v) fetch fetch') ∧
      (∀ format, Keeps (Amd.PageTables.walk format levels root v) fetch fetch') :=
  ⟨fun _ => walkWith_cleared _ v hc _ h h5 hr, fun _ => walkWith_cleared _ v hc _ h h5 hr⟩

/-- The tree of the module documentation without its leaf. -/
def leaflessTree (paddr : U64) : U64 := if paddr = 0x4000#64 then 0#64 else docTree paddr

theorem leaflessTree_cleared :
    (∀ stage, Keeps (Intel.PageTables.walk stage 4 0x1000#64 0x123#64) docTree leaflessTree) ∧
      (∀ format, Keeps (Amd.PageTables.walk format 4 0x1000#64 0x123#64) docTree leaflessTree) :=
  cleared_walk docTree leaflessTree (fun a ha => by
    unfold leaflessTree at ha ⊢
    split at ha
    · exact absurd ha (by decide)
    · rw [if_neg ‹_›]) 4 (by decide) (by decide) 0x1000#64 rfl 0x123#64

end Iommu.PageTables
