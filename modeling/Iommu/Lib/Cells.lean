import Iommu.Lib.Slots
import Mathlib.Data.List.FinRange

/-! Records of words in a memory.

A record is kept in some cells of a memory and is written a word at a time. Records whose
cells do not meet are slots in the sense of `Slots`, and each of them reads, after any
writes, as it was last written (`Cells.faithful`). -/
namespace Iommu.Lib

/-- Where the words of each record are. -/
structure Cells (A K : Type) (size : Nat) where
  cell : K → Fin size → A
  apart : ∀ k k' i i', cell k i = cell k' i' → k = k' ∧ i = i'

/-- Words written one after another. -/
def writeWords {A W : Type} [DecidableEq A] {size : Nat} (cell : Fin size → A) (words : Fin size → W) (mem : A → W) :
    A → W :=
  (List.finRange size).foldl (fun mem i => Function.update mem (cell i) (words i)) mem

section Writes
variable {A W : Type} [DecidableEq A] {size : Nat} {cell : Fin size → A} (words : Fin size → W)

theorem foldl_update_other {is : List (Fin size)} {a : A} (h : ∀ i ∈ is, a ≠ cell i) (mem : A → W) :
    is.foldl (fun mem i => Function.update mem (cell i) (words i)) mem a = mem a := by
  induction is generalizing mem with
  | nil => rfl
  | cons i is ih =>
    obtain ⟨hi, his⟩ := List.forall_mem_cons.mp h
    rw [List.foldl_cons, ih his, Function.update_of_ne hi]

theorem foldl_update_cell (hcell : Function.Injective cell) {is : List (Fin size)} {i : Fin size} (hi : i ∈ is)
    (mem : A → W) : is.foldl (fun mem i => Function.update mem (cell i) (words i)) mem (cell i) = words i := by
  induction is generalizing mem with
  | nil => exact absurd hi List.not_mem_nil
  | cons j is ih =>
    rw [List.foldl_cons]
    by_cases his : i ∈ is
    · exact ih his _
    · obtain rfl := (List.mem_cons.mp hi).resolve_right his
      have hother : ∀ k ∈ is, cell i ≠ cell k := fun k hk hcells => his (hcell hcells ▸ hk)
      rw [foldl_update_other words hother, Function.update_self]

theorem writeWords_other {a : A} (h : ∀ i, a ≠ cell i) (mem : A → W) : writeWords cell words mem a = mem a :=
  foldl_update_other words (fun i _ => h i) mem

theorem writeWords_cell (hcell : Function.Injective cell) (i : Fin size) (mem : A → W) :
    writeWords cell words mem (cell i) = words i :=
  foldl_update_cell words hcell (List.mem_finRange i) mem

end Writes

namespace Cells
variable {A K : Type} {size : Nat} (C : Cells A K size) {W : Type}

def read (k : K) (mem : A → W) : Fin size → W := fun i => mem (C.cell k i)

variable [DecidableEq A]

theorem read_writeWords (k : K) (words : Fin size → W) (mem : A → W) :
    C.read k (writeWords (C.cell k) words mem) = words := by
  funext i
  exact writeWords_cell words (fun i i' h => (C.apart k k i i' h).2) i mem

theorem read_writeWords_ne {k k' : K} (h : k' ≠ k) (words : Fin size → W) (mem : A → W) :
    C.read k' (writeWords (C.cell k) words mem) = C.read k' mem := by
  funext i
  exact writeWords_other words (fun i' hcells => h (C.apart k' k i i' hcells).1) mem

/-- A memory as a record of its records. -/
abbrev slots (W : Type) : Slots (A → W) K where
  Val _ := Fin size → W
  get := C.read
  set k := writeWords (C.cell k)
  kept _ := id
  get_set := C.read_writeWords

/-- **Every record reads as it was last written.** -/
theorem faithful (mem : A → W) (writes : List (C.slots W).Call) : (C.slots W).Faithful mem writes :=
  (C.slots W).faithful_of_frames mem writes fun _ c _ _ hne => C.read_writeWords_ne hne c.2 _

/-- Nothing is written but the cells of the records. -/
theorem run_other {a : A} (mem : A → W) (writes : List (C.slots W).Call) (h : ∀ c ∈ writes, ∀ i, a ≠ C.cell c.1 i) :
    (C.slots W).run mem writes a = mem a := by
  induction writes generalizing mem with
  | nil => rfl
  | cons c writes ih =>
    obtain ⟨hc, hrest⟩ := List.forall_mem_cons.mp h
    rw [Slots.run_cons, ih _ hrest]
    exact writeWords_other c.2 hc mem

end Cells
end Iommu.Lib
