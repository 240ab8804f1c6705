import Iommu.Lib.Exec
import Iommu.Lib.Slots

/-! Pages of records of one size.

A record is stored by copying its items over its slot of a page. The slots do not meet, so
a page is a record of slots in the sense of `Slots`, and each of its slots holds after a run
what was last stored there (`Page.faithful`). -/
namespace Iommu.Lib

section Overwrite
variable {α : Type}

/-- Items with a part of them overwritten. -/
def overwrite (xs : List α) (lo : Nat) (ys : List α) : List α := xs.take lo ++ ys ++ xs.drop (lo + ys.length)

theorem copyInto_overwrite {xs ys : List α} {lo hi : Nat} (hhi : lo + ys.length = hi) (h : hi ≤ xs.length) :
    Exec.copyInto xs lo hi ys = .returns (overwrite xs lo ys) := by
  have hold : ((xs.drop lo).take (hi - lo)).length = ys.length := by
    rw [List.length_take, List.length_drop]
    omega
  rw [Exec.copyInto, Exec.slice_of_le (by omega) h, Exec.returns_bind, hold, Exec.copyFromSlice_of_eq rfl,
    Exec.returns_bind, Exec.pure_eq, overwrite, hhi]

theorem length_overwrite {xs ys : List α} {lo : Nat} (h : lo + ys.length ≤ xs.length) :
    (overwrite xs lo ys).length = xs.length := by
  simp only [overwrite, List.length_append, List.length_take, List.length_drop]
  omega

/-- What was written is read back. -/
theorem take_overwrite {xs ys : List α} {lo : Nat} (h : lo + ys.length ≤ xs.length) :
    ((overwrite xs lo ys).drop lo).take ys.length = ys := by
  have hlo : (xs.take lo).length = lo := by
    rw [List.length_take]
    omega
  rw [overwrite, List.append_assoc, List.drop_left' hlo, List.take_left]

/-- What a write does not reach is read as before. -/
theorem take_overwrite_apart {xs ys : List α} {lo : Nat} (h : lo + ys.length ≤ xs.length) (a n : Nat)
    (hapart : a + n ≤ lo ∨ lo + ys.length ≤ a) : ((overwrite xs lo ys).drop a).take n = (xs.drop a).take n := by
  have hlo : (xs.take lo).length = lo := by
    rw [List.length_take]
    omega
  rcases hapart with hbelow | habove
  · have hpart : ∀ zs : List α, ((xs.take lo ++ zs).drop a).take n = (xs.drop a).take n := fun zs => by
      rw [List.drop_append_of_le_length (by omega), List.take_append_of_le_length (by rw [List.length_drop]; omega),
        List.drop_take, List.take_take, Nat.min_eq_left (by omega)]
    rw [overwrite, List.append_assoc, hpart]
  · have hlength : (xs.take lo ++ ys).length = lo + ys.length := by rw [List.length_append, hlo]
    have hdrop : (overwrite xs lo ys).drop a = xs.drop a := by
      obtain ⟨k, rfl⟩ := Nat.exists_eq_add_of_le habove
      rw [overwrite, ← List.drop_drop, List.drop_left' hlength, List.drop_drop]
    rw [hdrop]

end Overwrite

/-! ### Pages -/

/-- Items in slots of one size. -/
structure Page (α : Type) (count size : Nat) where
  items : List α
  length_items : items.length = size * count

namespace Page
variable {α : Type} {count size : Nat}

/-- A record of the size of a slot. -/
abbrev Record (α : Type) (size : Nat) : Type := { ys : List α // ys.length = size }

theorem slot_le (i : Fin count) : size * i + size ≤ size * count := by
  rw [← Nat.mul_succ]
  exact Nat.mul_le_mul_left size i.isLt

def slot (i : Fin count) (p : Page α count size) : Record α size :=
  ⟨(p.items.drop (size * i)).take size, by
    have hle : size * i + size ≤ size * count := slot_le i
    rw [List.length_take, List.length_drop, p.length_items]
    omega⟩

def put (i : Fin count) (r : Record α size) (p : Page α count size) : Page α count size :=
  ⟨overwrite p.items (size * i) r.1, by
    rw [length_overwrite, p.length_items]
    rw [r.2, p.length_items]
    exact slot_le i⟩

theorem put_fits (i : Fin count) (r : Record α size) (p : Page α count size) :
    size * i + r.1.length ≤ p.items.length := by
  rw [r.2, p.length_items]
  exact slot_le i

theorem slot_put (i : Fin count) (r : Record α size) (p : Page α count size) : (p.put i r).slot i = r := by
  have hread := take_overwrite (p.put_fits i r)
  rw [r.2] at hread
  exact Subtype.ext hread

/-- No two slots meet. -/
theorem slot_put_ne {i j : Fin count} (h : j ≠ i) (r : Record α size) (p : Page α count size) :
    (p.put i r).slot j = p.slot j := by
  refine Subtype.ext (take_overwrite_apart (p.put_fits i r) (size * j) size ?_)
  rw [r.2, ← Nat.mul_succ, ← Nat.mul_succ]
  rcases Nat.lt_or_gt_of_ne (Fin.val_ne_of_ne h) with hlt | hlt
  · exact .inl (Nat.mul_le_mul_left size hlt)
  · exact .inr (Nat.mul_le_mul_left size hlt)

/-- A page as a record of its slots. -/
abbrev slots (α : Type) (count size : Nat) : Slots (Page α count size) (Fin count) where
  Val _ := Record α size
  get := slot
  set := put
  kept _ := id
  get_set := slot_put

/-- **Every slot holds what was last stored there.** -/
theorem faithful (p : Page α count size) (stores : List (slots α count size).Call) :
    (slots α count size).Faithful p stores :=
  (slots α count size).faithful_of_frames p stores fun _ c _ _ hj => slot_put_ne hj c.2 _

/-- A store into a slot that a page has returns. -/
theorem copyInto_eq (i : Fin count) (r : Record α size) (p : Page α count size) :
    Exec.copyInto p.items (size * i) (size * i + size) r.1 = .returns (p.put i r).items :=
  copyInto_overwrite (by rw [r.2]) (by rw [p.length_items]; exact slot_le i)

theorem slice_eq (i : Fin count) (p : Page α count size) :
    Exec.slice p.items (size * i) (size * i + size) = .returns (p.slot i).1 := by
  rw [Exec.slice_of_le (Nat.le_add_right _ _) (by rw [p.length_items]; exact slot_le i), Nat.add_sub_cancel_left]
  rfl

end Page
end Iommu.Lib
