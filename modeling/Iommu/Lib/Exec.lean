import Mathlib.Data.BitVec

/-! Calls that return or panic.

A checked build stops a call on an arithmetic overflow, an index out of bounds or
a failed assertion. `Exec` carries that outcome, so that a call shown to return
shows at the same time that nothing it computed wrapped or was read past its end. -/
namespace Iommu.Lib

/-- Why a call does not return. -/
inductive Panic where
  | overflow | bounds | assertion | unwrap | unreachable
  deriving DecidableEq, Repr

inductive Exec (α : Type) where
  | returns : α → Exec α
  | panics : Panic → Exec α
  deriving DecidableEq, Repr

namespace Exec
variable {α β : Type}

def bind : Exec α → (α → Exec β) → Exec β
  | returns a, f => f a
  | panics p, _ => panics p

instance : Monad Exec where
  pure := returns
  bind := bind

@[simp] theorem pure_eq (a : α) : (pure a : Exec α) = returns a := rfl

@[simp] theorem returns_bind (a : α) (f : α → Exec β) : (returns a >>= f) = f a := rfl

/-! ### Checked operations -/

/-- An assertion of a checked build. -/
def assert (c : Prop) [Decidable c] : Exec Unit := if c then returns () else panics .assertion

/-- Addition of machine words, stopped on overflow. -/
def add {w : Nat} (a b : BitVec w) : Exec (BitVec w) :=
  if a.toNat + b.toNat < 2 ^ w then returns (a + b) else panics .overflow

/-- Multiplication of machine words, stopped on overflow. -/
def mul {w : Nat} (a b : BitVec w) : Exec (BitVec w) :=
  if a.toNat * b.toNat < 2 ^ w then returns (a * b) else panics .overflow

/-- Subtraction of unsigned counters, stopped below zero. -/
def sub (a b : Nat) : Exec Nat := if b ≤ a then returns (a - b) else panics .overflow

/-- Subtraction of machine words, stopped below zero. -/
def subWord {w : Nat} (a b : BitVec w) : Exec (BitVec w) := if b ≤ a then returns (a - b) else panics .overflow

/-- A right shift, stopped when the amount is not below the width. -/
def shr {w : Nat} (a : BitVec w) (n : Nat) : Exec (BitVec w) :=
  if n < w then returns (a >>> n) else panics .overflow

/-- A left shift, stopped when the amount is not below the width. -/
def shl {w : Nat} (a : BitVec w) (n : Nat) : Exec (BitVec w) :=
  if n < w then returns (a <<< n) else panics .overflow

/-- `xs[i]`. -/
def index (xs : List α) (i : Nat) : Exec α :=
  match xs[i]? with
  | some a => returns a
  | none => panics .bounds

/-- `xs[lo..hi]`. -/
def slice (xs : List α) (lo hi : Nat) : Exec (List α) :=
  if lo ≤ hi ∧ hi ≤ xs.length then returns ((xs.drop lo).take (hi - lo)) else panics .bounds

/-- `xs[lo..]`. -/
def sliceFrom (xs : List α) (lo : Nat) : Exec (List α) :=
  if lo ≤ xs.length then returns (xs.drop lo) else panics .bounds

/-- `xs.split_at(n)`. -/
def splitAt (xs : List α) (n : Nat) : Exec (List α × List α) :=
  if n ≤ xs.length then returns (xs.take n, xs.drop n) else panics .bounds

/-- A slice as an array of the given size, `xs.try_into().expect(..)`. -/
def tryInto (size : Nat) (xs : List α) : Exec (List α) :=
  if xs.length = size then returns xs else panics .unwrap

/-- `dst.copy_from_slice(src)`, where `dst` is a whole array of the given size. -/
def copyFromSlice (size : Nat) (src : List α) : Exec (List α) :=
  if src.length = size then returns src else panics .assertion

/-- `dst[lo..hi].copy_from_slice(src)`. -/
def copyInto (dst : List α) (lo hi : Nat) (src : List α) : Exec (List α) := do
  let old ← slice dst lo hi
  let new ← copyFromSlice old.length src
  return dst.take lo ++ new ++ dst.drop hi

theorem assert_of {c : Prop} [Decidable c] (h : c) : assert c = returns () := if_pos h

theorem assert_of_not {c : Prop} [Decidable c] (h : ¬c) : assert c = panics .assertion := if_neg h

theorem add_of_lt {w : Nat} {a b : BitVec w} (h : a.toNat + b.toNat < 2 ^ w) :
    add a b = returns (a + b) := if_pos h

theorem mul_of_lt {w : Nat} {a b : BitVec w} (h : a.toNat * b.toNat < 2 ^ w) :
    mul a b = returns (a * b) := if_pos h

theorem sub_of_le {a b : Nat} (h : b ≤ a) : sub a b = returns (a - b) := if_pos h

theorem subWord_of_le {w : Nat} {a b : BitVec w} (h : b ≤ a) : subWord a b = returns (a - b) := if_pos h

theorem shr_of_lt {w n : Nat} {a : BitVec w} (h : n < w) : shr a n = returns (a >>> n) := if_pos h

theorem shl_of_lt {w n : Nat} {a : BitVec w} (h : n < w) : shl a n = returns (a <<< n) := if_pos h

theorem index_eq_getD {xs : List α} {i : Nat} (h : i < xs.length) (d : α) :
    index xs i = returns (xs.getD i d) := by
  simp [index, h]

theorem slice_of_le {xs : List α} {lo hi : Nat} (h : lo ≤ hi) (h' : hi ≤ xs.length) :
    slice xs lo hi = returns ((xs.drop lo).take (hi - lo)) := if_pos ⟨h, h'⟩

theorem sliceFrom_of_le {xs : List α} {lo : Nat} (h : lo ≤ xs.length) :
    sliceFrom xs lo = returns (xs.drop lo) := if_pos h

theorem splitAt_of_le {xs : List α} {n : Nat} (h : n ≤ xs.length) :
    splitAt xs n = returns (xs.take n, xs.drop n) := if_pos h

theorem tryInto_of_eq {size : Nat} {xs : List α} (h : xs.length = size) :
    tryInto size xs = returns xs := if_pos h

theorem copyFromSlice_of_eq {size : Nat} {src : List α} (h : src.length = size) :
    copyFromSlice size src = returns src := if_pos h

theorem index_append (xs ys : List α) {y : α} {i : Nat} (h : xs.length = i) : index (xs ++ y :: ys) i = returns y := by
  subst h
  simp [index]

/-- A range that the parts of a list show. -/
theorem slice_append (xs ys zs : List α) {lo hi : Nat} (hlo : xs.length = lo) (hhi : lo + ys.length = hi) :
    slice (xs ++ (ys ++ zs)) lo hi = returns ys := by
  subst hlo hhi
  rw [slice_of_le (Nat.le_add_right _ _) (by simp only [List.length_append]; omega), List.drop_left,
    Nat.add_sub_cancel_left, List.take_left]

theorem copyInto_append (xs ys zs : List α) {src : List α} {lo hi : Nat} (hlo : xs.length = lo)
    (hhi : lo + ys.length = hi) (hsrc : src.length = ys.length) :
    copyInto (xs ++ (ys ++ zs)) lo hi src = returns (xs ++ src ++ zs) := by
  rw [copyInto, slice_append xs ys zs hlo hhi, returns_bind, copyFromSlice_of_eq hsrc, returns_bind, pure_eq]
  subst hlo hhi
  rw [List.take_left, ← List.drop_drop, List.drop_left, List.drop_left]

/-! ### Calls that return -/

/-- A sequence returns what the rest returns of what its first call returned. -/
theorem bind_eq_returns {x : Exec α} {f : α → Exec β} {b : β} :
    x >>= f = returns b ↔ ∃ a, x = returns a ∧ f a = returns b := by
  cases x with
  | returns a => exact ⟨fun h => ⟨a, rfl, h⟩, fun ⟨_, h, hf⟩ => by cases h; exact hf⟩
  | panics p => exact ⟨fun h => (nomatch h), fun ⟨_, h, _⟩ => nomatch h⟩

def Returns (x : Exec α) : Prop := ∃ a, x = returns a

theorem not_returns_panics (p : Panic) : ¬(panics p : Exec α).Returns := fun ⟨_, h⟩ => nomatch h

/-- A sequence returns when its first call does and the rest does from there. -/
theorem returns_bind_iff {x : Exec α} {f : α → Exec β} :
    (x >>= f).Returns ↔ ∃ a, x = returns a ∧ (f a).Returns := by
  simp only [Returns, bind_eq_returns]
  exact ⟨fun ⟨b, a, h, hb⟩ => ⟨a, h, b, hb⟩, fun ⟨a, h, b, hb⟩ => ⟨b, a, h, hb⟩⟩

theorem Returns.bind {x : Exec α} {f : α → Exec β} (h : x.Returns) (hf : ∀ a, (f a).Returns) :
    (x >>= f).Returns := by
  obtain ⟨a, rfl⟩ := h
  exact hf a

theorem returns_index_iff {xs : List α} {i : Nat} : (index xs i).Returns ↔ i < xs.length := by
  constructor
  · intro ⟨a, h⟩
    by_contra hlen
    rw [index, List.getElem?_eq_none (Nat.not_lt.mp hlen)] at h
    exact nomatch h
  · intro h
    exact ⟨xs[i], by rw [index, List.getElem?_eq_getElem h]⟩

theorem returns_add_iff {w : Nat} {a b : BitVec w} : (add a b).Returns ↔ a.toNat + b.toNat < 2 ^ w := by
  rw [add]
  split
  case isTrue h => exact ⟨fun _ => h, fun _ => ⟨a + b, rfl⟩⟩
  case isFalse h => exact ⟨fun hp => absurd hp (not_returns_panics _), fun hlt => absurd hlt h⟩

theorem returns_shl_iff {w n : Nat} {a : BitVec w} : (shl a n).Returns ↔ n < w := by
  rw [shl]
  split
  case isTrue h => exact ⟨fun _ => h, fun _ => ⟨a <<< n, rfl⟩⟩
  case isFalse h => exact ⟨fun hp => absurd hp (not_returns_panics _), fun hlt => absurd hlt h⟩

/-- A call on each of the items returns when it does on every one. -/
theorem mapM'_returns {f : α → Exec β} {xs : List α} (h : ∀ x ∈ xs, (f x).Returns) : (xs.mapM' f).Returns := by
  induction xs with
  | nil => exact ⟨[], rfl⟩
  | cons x xs ih =>
    obtain ⟨hx, hxs⟩ := List.forall_mem_cons.mp h
    exact .bind hx fun y => .bind (ih hxs) fun ys => ⟨y :: ys, rfl⟩

end Exec

/-- `xs.get(lo..hi)`. -/
def getRange {α : Type} (xs : List α) (lo hi : Nat) : Option (List α) :=
  if lo ≤ hi ∧ hi ≤ xs.length then some ((xs.drop lo).take (hi - lo)) else none

/-- What it finds has the length of the range. -/
theorem length_of_getRange {α : Type} {xs ys : List α} {lo hi : Nat} (h : getRange xs lo hi = some ys) :
    ys.length = hi - lo := by
  rw [getRange] at h
  split at h
  case isTrue hle =>
    cases h
    rw [List.length_take, List.length_drop]
    omega
  case isFalse => cases h

theorem length_of_getRange_add {α : Type} {xs ys : List α} {lo n : Nat} (h : getRange xs lo (lo + n) = some ys) :
    ys.length = n :=
  (length_of_getRange h).trans (Nat.add_sub_cancel_left lo n)

/-- A range is found whatever follows. -/
theorem getRange_left {xs field : List U8} {lo hi : Nat} (h : getRange xs lo hi = some field) (rest : List U8) :
    getRange (xs ++ rest) lo hi = some field := by
  unfold getRange at h ⊢
  split at h
  case isTrue hle =>
    cases h
    rw [if_pos ⟨hle.1, by rw [List.length_append]; omega⟩, List.drop_append_of_le_length (by omega),
      List.take_append_of_le_length (by rw [List.length_drop]; omega)]
  case isFalse => cases h

/-! ### Reads with a default -/

section ReadOr
variable {α β : Type}

/-- A field of `n` items, or a default when it is not all there. -/
def readOr (xs : List α) (lo n : Nat) (of : List α → β) (default : β) : β :=
  match getRange xs lo (lo + n) with
  | some field => of field
  | none => default

theorem readOr_of_le {xs : List α} {lo n : Nat} (of : List α → β) (default : β) (h : lo + n ≤ xs.length) :
    readOr xs lo n of default = of ((xs.drop lo).take n) := by
  rw [readOr, getRange, if_pos ⟨Nat.le_add_right lo n, h⟩, Nat.add_sub_cancel_left]

theorem readOr_of_lt {xs : List α} {lo n : Nat} (of : List α → β) (default : β) (h : xs.length < lo + n) :
    readOr xs lo n of default = default := by
  rw [readOr, getRange, if_neg (fun hle => absurd hle.2 (Nat.not_le.mpr h))]

theorem readOr_returns {of : List α → Exec β} {default : Exec β} {n : Nat} (hdefault : default.Returns)
    (hof : ∀ field, field.length = n → (of field).Returns) (xs : List α) (lo : Nat) :
    (readOr xs lo n of default).Returns := by
  rw [readOr]
  cases hfield : getRange xs lo (lo + n) with
  | none => exact hdefault
  | some field => exact hof field (length_of_getRange_add hfield)

/-- What comes after the items makes no difference to the access. -/
def Inside (access : List α → β) (xs : List α) : Prop := ∀ more, access (xs ++ more) = access xs

/-- **An access is inside exactly when it finds its field.** The default is told apart
from a field by what the field ends with. -/
theorem readOr_inside_iff {of : List α → β} {default : β} {n : Nat} (last : α) (hn : 0 < n)
    (hof : ∀ field, field.length + 1 = n → of (field ++ [last]) ≠ default) (xs : List α) (lo : Nat) :
    Inside (fun xs => readOr xs lo n of default) xs ↔ lo + n ≤ xs.length := by
  constructor
  · intro h
    by_contra hshort
    have hlt : xs.length < lo + n := Nat.not_le.mp hshort
    let pad := List.replicate (lo + n - 1 - xs.length) last
    have hpad : (xs ++ pad).length = lo + (n - 1) := by
      rw [List.length_append, List.length_replicate]
      omega
    have hlong : lo + n ≤ (xs ++ (pad ++ [last])).length := by
      rw [← List.append_assoc, List.length_append, hpad, List.length_singleton]
      omega
    have hfield : (((xs ++ pad).drop lo) ++ [last]).take n = (xs ++ pad).drop lo ++ [last] := by
      apply List.take_of_length_le
      rw [List.length_append, List.length_drop, hpad, List.length_singleton]
      omega
    have hread : readOr (xs ++ (pad ++ [last])) lo n of default = readOr xs lo n of default := h (pad ++ [last])
    rw [readOr_of_lt of default hlt, readOr_of_le of default hlong, ← List.append_assoc,
      List.drop_append_of_le_length (by omega), hfield] at hread
    refine hof _ ?_ hread
    rw [List.length_drop, hpad]
    omega
  · intro h more
    have hlong : lo + n ≤ (xs ++ more).length := by
      rw [List.length_append]
      omega
    have hroom : n ≤ (xs.drop lo).length := by
      rw [List.length_drop]
      omega
    show readOr (xs ++ more) lo n of default = readOr xs lo n of default
    rw [readOr_of_le of default h, readOr_of_le of default hlong, List.drop_append_of_le_length (by omega),
      List.take_append_of_le_length hroom]

/-- The same for one item. -/
theorem getD_inside_iff {f : α → β} {default : α} (other : α) (hf : f other ≠ f default) (xs : List α) (i : Nat) :
    Inside (fun xs => f (xs[i]?.getD default)) xs ↔ i < xs.length := by
  constructor
  · intro h
    by_contra hshort
    have hle : xs.length ≤ i := Nat.not_lt.mp hshort
    have hmore : (xs ++ List.replicate (i + 1 - xs.length) other)[i]? = some other := by
      rw [List.getElem?_append_right hle, List.getElem?_replicate, if_pos (by omega)]
    have hread := h (List.replicate (i + 1 - xs.length) other)
    simp only [hmore, List.getElem?_eq_none hle, Option.getD_some, Option.getD_none] at hread
    exact hf hread
  · intro h more
    show f ((xs ++ more)[i]?.getD default) = f (xs[i]?.getD default)
    rw [List.getElem?_append_left h]

end ReadOr

end Iommu.Lib
