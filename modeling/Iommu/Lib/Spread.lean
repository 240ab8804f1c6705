import Iommu.Lib.Slots
import Iommu.Lib.Word

/-! Fields spread over several places.

A field may be kept in more than one *chunk* of the words of a record, as an address is
that does not fit in one of them, and formats of one record may use the same bits for
different fields. All that is asked of a setter is that it writes its own chunks, and of
a getter that it reads no others: the fields of one format, whose chunks do not meet,
then do not see one another (`faithful_on`). -/
namespace Iommu.Lib
open Word

/-- Bits of one of the words at `ι`, and what a `V` puts there. -/
structure Chunk (ι V : Type) where
  word : ι
  lo : Nat
  width : Nat
  code : V → BitVec width

namespace Chunk

/-! ### Shapes -/

section Shapes
variable {ι V : Type} (j : ι) (lo n : Nat)

/-- A single bit. -/
def flag : Chunk ι Bool := ⟨j, lo, 1, BitVec.ofBool⟩

/-- A number of the chunk's own width. -/
def whole : Chunk ι (BitVec n) := ⟨j, lo, n, id⟩

/-- The low bits of a code. -/
def coded {k : Nat} (bits : V → BitVec k) : Chunk ι V := ⟨j, lo, n, fun v => (bits v).setWidth n⟩

/-- Bits of a wider number. -/
def part {k : Nat} (start : Nat) : Chunk ι (BitVec k) := ⟨j, lo, n, fun v => v.extractLsb' start n⟩

/-- A bit that is set whatever the value. -/
def ones : Chunk ι V := ⟨j, lo, 1, fun _ => 1#1⟩

end Shapes

variable {w : Nat} {ι V V' : Type}

def slice (c : Chunk ι V) (ws : ι → BitVec w) : BitVec c.width := (ws c.word).extractLsb' c.lo c.width

def Covers (c : Chunk ι V) (j : ι) (i : Nat) : Prop := j = c.word ∧ c.lo ≤ i ∧ i < c.lo + c.width

instance [DecidableEq ι] (c : Chunk ι V) (j : ι) (i : Nat) : Decidable (c.Covers j i) := instDecidableAnd

def Apart (c : Chunk ι V) (d : Chunk ι V') : Prop :=
  c.word ≠ d.word ∨ c.lo + c.width ≤ d.lo ∨ d.lo + d.width ≤ c.lo

instance [DecidableEq ι] (c : Chunk ι V) (d : Chunk ι V') : Decidable (c.Apart d) := instDecidableOr

theorem Apart.symm {c : Chunk ι V} {d : Chunk ι V'} (h : c.Apart d) : d.Apart c := h.imp Ne.symm Or.symm

/-- The chunk can only give a bit the value `b`. -/
def Keeps (c : Chunk ι V) (v : V) (j : ι) (i : Nat) (b : Bool) : Prop :=
  c.Covers j i → (c.code v).getLsbD (i - c.lo) = b

theorem keeps_of_out [DecidableEq ι] {c : Chunk ι V} {v : V} {j : ι} {i : Nat} {b : Bool}
    (h : decide (c.Covers j i) = false) : c.Keeps v j i b :=
  fun hin => absurd hin (of_decide_eq_false h)

/-! ### One write -/

variable [DecidableEq ι]

def write (v : V) (ws : ι → BitVec w) (c : Chunk ι V) : ι → BitVec w :=
  Function.update ws c.word (put c.lo (c.code v) (ws c.word))

theorem slice_write (v : V) (ws : ι → BitVec w) (c : Chunk ι V) (h : c.lo + c.width ≤ w) :
    c.slice (c.write v ws) = c.code v := by
  rw [slice, write, Function.update_self, slice_put c.lo (c.code v) _ h]

/-- A write is not seen in a chunk apart from its own. -/
theorem slice_write_apart (v : V) (ws : ι → BitVec w) (c : Chunk ι V) (d : Chunk ι V') (h : c.Apart d) :
    d.slice (c.write v ws) = d.slice ws :=
  slice_update_apart ws c.lo d.lo (c.code v) h

theorem getLsbD_write (v : V) (ws : ι → BitVec w) (c : Chunk ι V) {j : ι} {i : Nat} {b : Bool} (hi : i < w)
    (h : c.Keeps v j i b) (hb : (ws j).getLsbD i = b) : (c.write v ws j).getLsbD i = b := by
  rw [write, getLsbD_update ws c.lo (c.code v) hi]
  split
  case isTrue hin => exact h hin
  case isFalse => exact hb

/-! ### Several writes -/

def writes (cs : List (Chunk ι V)) (v : V) (ws : ι → BitVec w) : ι → BitVec w := cs.foldl (write v) ws

theorem slice_writes_apart (cs : List (Chunk ι V)) (v : V) (ws : ι → BitVec w) (d : Chunk ι V')
    (h : ∀ c ∈ cs, c.Apart d) : d.slice (writes cs v ws) = d.slice ws := by
  induction cs generalizing ws with
  | nil => rfl
  | cons c cs ih =>
    obtain ⟨hc, hcs⟩ := List.forall_mem_cons.mp h
    show d.slice (writes cs v (c.write v ws)) = _
    rw [ih (c.write v ws) hcs, slice_write_apart v ws c d hc]

/-- Chunks that do not meet all hold their codes. -/
theorem slice_writes {cs : List (Chunk ι V)} (h : cs.Pairwise Apart) (v : V) (ws : ι → BitVec w) {c : Chunk ι V}
    (hc : c ∈ cs) (hw : c.lo + c.width ≤ w) : c.slice (writes cs v ws) = c.code v := by
  induction cs generalizing ws with
  | nil => exact absurd hc List.not_mem_nil
  | cons d cs ih =>
    obtain ⟨hd, hcs⟩ := List.pairwise_cons.mp h
    show c.slice (writes cs v (d.write v ws)) = _
    rcases List.mem_cons.mp hc with rfl | hc
    · rw [slice_writes_apart cs v _ c fun e he => (hd e he).symm, slice_write v ws c hw]
    · exact ih hcs (d.write v ws) hc

theorem getLsbD_writes (cs : List (Chunk ι V)) (v : V) (ws : ι → BitVec w) {j : ι} {i : Nat} {b : Bool} (hi : i < w)
    (h : ∀ c ∈ cs, c.Keeps v j i b) (hb : (ws j).getLsbD i = b) : (writes cs v ws j).getLsbD i = b := by
  induction cs generalizing ws with
  | nil => exact hb
  | cons c cs ih =>
    obtain ⟨hc, hcs⟩ := List.forall_mem_cons.mp h
    exact ih (c.write v ws) hcs (getLsbD_write v ws c hi hc hb)

/-! ### Fields -/

/-- A getter and a setter of a field that is kept in these chunks. -/
structure Field {S : Type} (cs : List (Chunk ι V)) (words : S → ι → BitVec w) (get : S → V) (set : V → S → S)
    (kept : V → V) : Prop where
  get_set : ∀ v s, get (set v s) = kept v
  /-- The getter reads nothing else. -/
  get_congr : ∀ s t, (∀ c ∈ cs, c.slice (words s) = c.slice (words t)) → get s = get t
  words_set : ∀ v s, words (set v s) = writes cs v (words s)

section OneChunk
variable {S : Type} {words : S → ι → BitVec w}

/-- A field that is kept in one chunk, and how it is read there. -/
theorem field {c : Chunk ι V} {get : S → V} {set : V → S → S} {kept : V → V} (read : BitVec c.width → V)
    (fits : c.lo + c.width ≤ w) (get_eq : ∀ s, get s = read (c.slice (words s)))
    (words_set : ∀ v s, words (set v s) = c.write v (words s)) (kept_eq : ∀ v, read (c.code v) = kept v) :
    Field [c] words get set kept where
  get_set := fun v s => by rw [get_eq, words_set, slice_write v _ c fits, kept_eq]
  get_congr := fun s t h => by rw [get_eq, get_eq, h c List.mem_cons_self]
  words_set := words_set

theorem flag_field {j : ι} {lo : Nat} {get : S → Bool} {set : Bool → S → S} (fits : lo + 1 ≤ w)
    (get_eq : ∀ s, get s = ((words s j).extractLsb' lo 1).getLsbD 0)
    (words_set : ∀ v s, words (set v s) = (flag j lo).write v (words s)) :
    Field [flag j lo] words get set id :=
  field (fun x => x.getLsbD 0) fits get_eq words_set ofBool_bit

theorem whole_field {j : ι} {lo n : Nat} {get : S → BitVec n} {set : BitVec n → S → S} (fits : lo + n ≤ w)
    (get_eq : ∀ s, get s = (words s j).extractLsb' lo n)
    (words_set : ∀ v s, words (set v s) = (whole j lo n).write v (words s)) :
    Field [whole j lo n] words get set id :=
  field id fits get_eq words_set fun _ => rfl

theorem coded_field {j : ι} {lo n k : Nat} {bits : V → BitVec k} {ofBits : BitVec k → V} {get : S → V}
    {set : V → S → S} {kept : V → V} (fits : lo + n ≤ w)
    (get_eq : ∀ s, get s = ofBits (((words s j).extractLsb' lo n).setWidth k))
    (words_set : ∀ v s, words (set v s) = (coded j lo n bits).write v (words s))
    (kept_eq : ∀ v, ofBits (((bits v).setWidth n).setWidth k) = kept v) :
    Field [coded j lo n bits] words get set kept :=
  field (fun x => ofBits (x.setWidth k)) fits get_eq words_set kept_eq

end OneChunk
end Chunk

/-! ### Records -/

/-- A record whose fields are spread over chunks. -/
structure Spread (w : Nat) (ι S K : Type) [DecidableEq ι] where
  Val : K → Type
  chunks : (k : K) → List (Chunk ι (Val k))
  words : S → ι → BitVec w
  get : (k : K) → S → Val k
  set : (k : K) → Val k → S → S
  /-- What is kept of a value. -/
  kept : (k : K) → Val k → Val k
  field : ∀ k, Chunk.Field (chunks k) words (get k) (set k) (kept k)

namespace Spread
variable {w : Nat} {ι S K : Type} [DecidableEq ι] (R : Spread w ι S K)

/-- The record with the fields of one format only. -/
def sub (format : K → Prop) : Spread w ι S {k // format k} where
  Val := fun k => R.Val k
  chunks := fun k => R.chunks k
  words := R.words
  get := fun k => R.get k
  set := fun k => R.set k
  kept := fun k => R.kept k
  field := fun k => R.field k

abbrev slots : Slots S K where
  Val := R.Val
  get := R.get
  set := R.set
  kept := R.kept
  get_set := fun k => (R.field k).get_set

/-- No two fields meet. -/
def Apart : Prop := ∀ k l, k ≠ l → ∀ c ∈ R.chunks k, ∀ d ∈ R.chunks l, c.Apart d

theorem frames (h : R.Apart) (s : S) (c : R.slots.Call) : R.slots.Frames s c := by
  obtain ⟨k, v⟩ := c
  intro l hl
  refine (R.field l).get_congr _ s fun d hd => ?_
  show d.slice (R.words (R.set k v s)) = _
  rw [(R.field k).words_set]
  exact Chunk.slice_writes_apart _ v _ d fun c hc => h k l (Ne.symm hl) c hc d hd

/-- **The fields of a spread record are independent.** -/
theorem faithful (h : R.Apart) (s : S) (cs : List R.slots.Call) : R.slots.Faithful s cs :=
  R.slots.faithful_of_frames s cs fun p c _ => R.frames h (R.slots.run s p) c

/-- **A bit keeps its value** that no call can change. -/
theorem getLsbD_run {j : ι} {i : Nat} {b : Bool} (hi : i < w) (s : S) (cs : List R.slots.Call)
    (h : ∀ call ∈ cs, ∀ c ∈ R.chunks call.1, c.Keeps call.2 j i b) (hb : (R.words s j).getLsbD i = b) :
    (R.words (R.slots.run s cs) j).getLsbD i = b := by
  induction cs generalizing s with
  | nil => exact hb
  | cons call cs ih =>
    obtain ⟨hcall, hcs⟩ := List.forall_mem_cons.mp h
    refine ih (R.set call.1 call.2 s) hcs ?_
    rw [(R.field call.1).words_set]
    exact Chunk.getLsbD_writes _ call.2 _ hi hcall hb

/-! ### Formats -/

/-- No two fields of the format meet. -/
def ApartOn (format : K → Prop) : Prop :=
  ∀ k l, format k → format l → k ≠ l → ∀ c ∈ R.chunks k, ∀ d ∈ R.chunks l, c.Apart d

/-- The record with the fields of one format only. -/
abbrev on (format : K → Prop) : Slots S {k // format k} where
  Val := fun k => R.Val k
  get := fun k => R.get k
  set := fun k => R.set k
  kept := fun k => R.kept k
  get_set := fun k => (R.field k).get_set

variable {format : K → Prop}

theorem ApartOn.sub {R : Spread w ι S K} (h : R.ApartOn format) : (R.sub format).Apart :=
  fun k l hkl => h k l k.2 l.2 fun heq => hkl (Subtype.ext heq)

/-- **The fields of a format are independent.** -/
theorem faithful_on (h : R.ApartOn format) (s : S) (cs : List (R.on format).Call) :
    (R.on format).Faithful s cs :=
  (R.sub format).faithful h.sub s cs

/-- A bit that no field of the format can change. -/
theorem getLsbD_run_on {j : ι} {i : Nat} {b : Bool} (hi : i < w)
    (h : ∀ k v, format k → ∀ c ∈ R.chunks k, c.Keeps v j i b) (s : S) (cs : List (R.on format).Call)
    (hb : (R.words s j).getLsbD i = b) : (R.words ((R.on format).run s cs) j).getLsbD i = b :=
  (R.sub format).getLsbD_run hi s cs (fun call _ => h call.1 call.2 call.1.2) hb

end Spread
end Iommu.Lib
