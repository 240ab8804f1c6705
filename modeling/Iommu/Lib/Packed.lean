import Iommu.Lib.Slots
import Iommu.Lib.Word

/-! Records packed into words.

A `Place` is a range of bits of one word together with a coding of its values. A
record is `Packed` when each of its getters reads one place, each of its setters
writes that place, and no two places meet. Nothing more is asked of it: whatever
setters are called, in whatever order, every getter returns what its own setter was
last given, and no bit moves that is not in a place that was set (`independent`). -/
namespace Iommu.Lib
open Word

/-- Bits of one of the words at `ι`, and how a `V` is coded there. -/
structure Place (w : Nat) (ι V : Type) where
  word : ι
  lo : Nat
  width : Nat
  fits : lo + width ≤ w
  code : V → BitVec width
  read : BitVec width → V

namespace Place
variable {w : Nat} {ι V V' : Type}

def Covers (p : Place w ι V) (j : ι) (i : Nat) : Prop := j = p.word ∧ p.lo ≤ i ∧ i < p.lo + p.width

def Apart (p : Place w ι V) (q : Place w ι V') : Prop :=
  p.word ≠ q.word ∨ p.lo + p.width ≤ q.lo ∨ q.lo + q.width ≤ p.lo

instance [DecidableEq ι] (p : Place w ι V) (q : Place w ι V') : Decidable (p.Apart q) := instDecidableOr

def get (p : Place w ι V) (ws : ι → BitVec w) : V := p.read ((ws p.word).extractLsb' p.lo p.width)

/-- The word of the place with a value put there. -/
def put (p : Place w ι V) (v : V) (x : BitVec w) : BitVec w := Word.put p.lo (p.code v) x

def set [DecidableEq ι] (p : Place w ι V) (v : V) (ws : ι → BitVec w) : ι → BitVec w :=
  Function.update ws p.word (p.put v (ws p.word))

/-! ### Shapes -/

section Shapes
variable (j : ι) (lo : Nat)

/-- A single bit. -/
def flag (h : lo + 1 ≤ w) : Place w ι Bool := ⟨j, lo, 1, h, BitVec.ofBool, fun x => x.getLsbD 0⟩

/-- A number of the place's own width. -/
def whole (n : Nat) (h : lo + n ≤ w) : Place w ι (BitVec n) := ⟨j, lo, n, h, id, id⟩

/-- The low bits of a wider number. -/
def narrow (n k : Nat) (h : lo + n ≤ w) : Place w ι (BitVec k) :=
  ⟨j, lo, n, h, fun v => v.setWidth n, fun x => x.setWidth k⟩

/-- Bits of a word that stand where they do in the word. -/
def inPlace (n : Nat) (h : lo + n ≤ w) : Place w ι (BitVec w) :=
  ⟨j, lo, n, h, fun v => v.extractLsb' lo n, Word.place w lo⟩

/-- The low bits of a code. -/
def coded {k : Nat} (n : Nat) (bits : V → BitVec k) (ofBits : BitVec k → V) (h : lo + n ≤ w) : Place w ι V :=
  ⟨j, lo, n, h, fun v => (bits v).setWidth n, fun x => ofBits (x.setWidth k)⟩

end Shapes

/-- What a place of each shape keeps of a value. -/
theorem narrow_normal (n k : Nat) (v : BitVec k) : (v.setWidth n).setWidth k = v &&& mask k 0 n :=
  (and_mask_zero v).symm

theorem inPlace_normal (lo n : Nat) (v : BitVec w) : Word.place w lo (v.extractLsb' lo n) = v &&& mask w lo n :=
  (and_mask lo v).symm

/-- A decoder that masks its argument decodes the low bits of a code as the code. -/
theorem coded_normal {k : Nat} (n : Nat) {ofBits : BitVec k → V}
    (h : ∀ v, ofBits (v &&& mask k 0 n) = ofBits v) (v : BitVec k) :
    ofBits ((v.setWidth n).setWidth k) = ofBits v := by
  rw [← and_mask_zero, h]

/-! ### One write -/

variable [DecidableEq ι]

theorem get_set (p : Place w ι V) (v : V) (ws : ι → BitVec w) : p.get (p.set v ws) = p.read (p.code v) := by
  rw [get, set, Function.update_self, put, slice_put p.lo (p.code v) _ p.fits]

/-- A write is not seen in a place apart from its own. -/
theorem get_set_apart (p : Place w ι V) (q : Place w ι V') (h : p.Apart q) (v : V) (ws : ι → BitVec w) :
    q.get (p.set v ws) = q.get ws :=
  congrArg q.read (slice_update_apart ws p.lo q.lo (p.code v) h)

/-- A write leaves every bit that is not in its place. -/
theorem getLsbD_set (p : Place w ι V) (v : V) (ws : ι → BitVec w) {j : ι} {i : Nat} (h : ¬p.Covers j i) :
    (p.set v ws j).getLsbD i = (ws j).getLsbD i := by
  by_cases hi : i < w
  · exact (getLsbD_update ws p.lo (p.code v) hi).trans (if_neg h)
  · rw [BitVec.getLsbD_of_ge _ i (Nat.not_lt.mp hi), BitVec.getLsbD_of_ge _ i (Nat.not_lt.mp hi)]

end Place

/-! ### Records -/

/-- A record of places. -/
structure Packed (w : Nat) (ι S K : Type) [DecidableEq ι] where
  Val : K → Type
  place : (k : K) → Place w ι (Val k)
  words : S → ι → BitVec w
  get : (k : K) → S → Val k
  set : (k : K) → Val k → S → S
  /-- What is kept of a value. -/
  kept : (k : K) → Val k → Val k
  apart : ∀ k l, k ≠ l → (place k).Apart (place l)
  kept_eq : ∀ k v, (place k).read ((place k).code v) = kept k v
  get_eq : ∀ k s, get k s = (place k).get (words s)
  set_word : ∀ k v s, words (set k v s) (place k).word = (place k).put v (words s (place k).word)
  set_other : ∀ k v s j, j ≠ (place k).word → words (set k v s) j = words s j

namespace Packed
variable {w : Nat} {ι S K : Type} [DecidableEq ι] (R : Packed w ι S K)

/-- A setter is a write to its place. -/
theorem words_set (k : K) (v : R.Val k) (s : S) : R.words (R.set k v s) = (R.place k).set v (R.words s) :=
  Function.eq_update_iff.mpr ⟨R.set_word k v s, fun j hj => R.set_other k v s j hj⟩

abbrev slots : Slots S K where
  Val := R.Val
  get := R.get
  set := R.set
  kept := R.kept
  get_set := fun k v s => by rw [R.get_eq, R.words_set, Place.get_set, R.kept_eq]

/-- Every call, in every state, leaves the other slots as they were. -/
theorem frames (s : S) (c : R.slots.Call) : R.slots.Frames s c := by
  obtain ⟨k, v⟩ := c
  intro l hl
  show R.get l (R.set k v s) = R.get l s
  rw [R.get_eq, R.get_eq, R.words_set, Place.get_set_apart _ _ (R.apart k l (Ne.symm hl))]

/-- The bit is in no place that is set. -/
def Untouched (cs : List R.slots.Call) (j : ι) (i : Nat) : Prop := ∀ c ∈ cs, ¬(R.place c.1).Covers j i

theorem getLsbD_call (s : S) (c : R.slots.Call) {j : ι} {i : Nat} (h : ¬(R.place c.1).Covers j i) :
    (R.words (R.slots.call s c) j).getLsbD i = (R.words s j).getLsbD i := by
  show (R.words (R.set c.1 c.2 s) j).getLsbD i = _
  rw [R.words_set, Place.getLsbD_set _ _ _ h]

theorem getLsbD_run (s : S) (cs : List R.slots.Call) {j : ι} {i : Nat} (h : R.Untouched cs j i) :
    (R.words (R.slots.run s cs) j).getLsbD i = (R.words s j).getLsbD i := by
  induction cs generalizing s with
  | nil => rfl
  | cons c cs ih =>
    obtain ⟨hc, hcs⟩ := List.forall_mem_cons.mp h
    rw [Slots.run_cons, ih (R.slots.call s c) hcs, R.getLsbD_call s c hc]

/-- The fields do not see one another, and nothing else is written. -/
structure Independent : Prop where
  faithful : ∀ s cs, R.slots.Faithful s cs
  untouched : ∀ s cs j i, R.Untouched cs j i →
    (R.words (R.slots.run s cs) j).getLsbD i = (R.words s j).getLsbD i

/-- **The fields of a packed record are independent.** -/
theorem independent : R.Independent where
  faithful := fun s cs => R.slots.faithful_of_frames s cs fun p c _ => R.frames (R.slots.run s p) c
  untouched := fun s _ _ _ h => R.getLsbD_run s _ h

end Packed
end Iommu.Lib
