import Iommu.Lib.Layout

/-! Registers that are only read.

An accessor of a register reads some of its bits and tells any two values of them apart.
Accessors whose bits do not meet are separate: whatever value each of them is to show,
there is one register that shows them all, once the bits that none of them reads are
chosen (`separate_of_fitting`). -/
namespace Iommu.Lib
open Word

/-- An accessor: the bits that it reads and what it makes of them. -/
structure Accessor (w : Nat) where
  Val : Type
  lo : Nat
  width : Nat
  read : BitVec width → Val
  read_injective : Function.Injective read
  get : BitVec w → Val
  get_eq : ∀ x, get x = read (x.extractLsb' lo width)

namespace Accessor
variable {w : Nat}

/-- Values for the accessors of a register, as the bits that each reads. -/
abbrev Values (w : Nat) := (a : Accessor w) → BitVec a.width

def fields (as : List (Accessor w)) (v : Values w) : List Field := as.map fun a => ⟨a.lo, a.width, v a⟩

/-- The bits that some accessor reads. -/
def covered (as : List (Accessor w)) : BitVec w := cover w (fields as fun _ => 0)

def extents (as : List (Accessor w)) : List (Nat × Nat) := as.map fun a => (a.lo, a.width)

/-- Every accessor shows its value. -/
def Shows (as : List (Accessor w)) (v : Values w) (x : BitVec w) : Prop := ∀ a ∈ as, a.get x = a.read (v a)

/-- The values of the accessors are free of one another, and are all that they tell. -/
structure Separate (as : List (Accessor w)) : Prop where
  shows : ∀ v x, ∃! y, Shows as v y ∧ y &&& ~~~covered as = x &&& ~~~covered as
  same : ∀ x y, (∀ a ∈ as, a.get x = a.get y) ↔ x &&& covered as = y &&& covered as

variable {as : List (Accessor w)}

theorem extents_fields (v : Values w) : Word.extents (fields as v) = extents as := by
  rw [fields, Word.extents, List.map_map]
  rfl

/-- What is covered does not depend on the values. -/
theorem cover_fields (as : List (Accessor w)) (v : Values w) : cover w (fields as v) = covered as := by
  induction as with
  | nil => rfl
  | cons a as ih => exact congrArg (mask w a.lo a.width ||| ·) ih

theorem shows_iff (v : Values w) (x : BitVec w) : Shows as v x ↔ Holds (fields as v) x := by
  rw [Shows, Holds, fields, List.forall_mem_map]
  refine forall₂_congr fun a _ => ?_
  rw [a.get_eq, a.read_injective.eq_iff]

theorem shows_iff_covered (h : Fitting w (extents as)) (v : Values w) (x : BitVec w) :
    Shows as v x ↔ x &&& covered as = pack w (fields as v) := by
  rw [shows_iff, holds_iff (by rwa [extents_fields]), cover_fields]

theorem and_or_and_not (x c : BitVec w) : (x &&& c) ||| (x &&& ~~~c) = x := by
  rw [← BitVec.and_or_distrib_left, BitVec.or_not_self, BitVec.and_allOnes]

theorem same_of_fitting (h : Fitting w (extents as)) (x y : BitVec w) :
    (∀ a ∈ as, a.get x = a.get y) ↔ x &&& covered as = y &&& covered as := by
  let v : Values w := fun a => y.extractLsb' a.lo a.width
  have hy : Shows as v y := fun a _ => a.get_eq y
  have hx : Shows as v x ↔ ∀ a ∈ as, a.get x = a.get y := forall₂_congr fun a _ => by rw [a.get_eq y]
  rw [← hx, shows_iff_covered h, (shows_iff_covered h v y).mp hy]

/-- **Accessors that do not meet are separate.** -/
theorem separate_of_fitting (h : Fitting w (extents as)) : Separate as where
  same := same_of_fitting h
  shows v x := by
    have hpack : pack w (fields as v) &&& covered as = pack w (fields as v) := by
      rw [← cover_fields as v, pack_and_cover]
    have hapart : covered as &&& ~~~covered as = 0#w := BitVec.and_not_self _
    refine ⟨pack w (fields as v) ||| (x &&& ~~~covered as), ⟨?_, ?_⟩, ?_⟩
    · rw [shows_iff_covered h, BitVec.and_or_distrib_right, hpack, BitVec.and_assoc, BitVec.and_comm (~~~_), hapart,
        BitVec.and_zero, BitVec.or_zero]
    · rw [BitVec.and_or_distrib_right, BitVec.and_assoc, BitVec.and_self, ← hpack, BitVec.and_assoc, hapart,
        BitVec.and_zero, BitVec.zero_or]
    · rintro y ⟨hshows, hrest⟩
      rw [← (shows_iff_covered h v y).mp hshows, ← hrest, and_or_and_not]

end Accessor
end Iommu.Lib
