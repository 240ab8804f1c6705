import Iommu.Lib.Layout

/-! Codecs of packed words.

A decoder of multi-word values is a *codec* when it accepts exactly the words that
hold the layout of a value within its bounds. The round trips follow in both
directions, and the layout is shown to be the bits read, no more and no fewer. -/
namespace Iommu.Lib
open Word

/-- A decoder of the words at the places `ι`, with the layout that each value has in
them and the bounds it must keep. -/
structure Codec (w : Nat) (ι D : Type) where
  decode : (ι → BitVec w) → Option D
  layout : D → ι → List Field
  Fits : D → Prop
  fitting : ∀ d j, Fitting w (extents (layout d j))
  /-- Decoding to `d` is holding its layout. -/
  decode_iff : ∀ ws d, decode ws = some d ↔ Fits d ∧ ∀ j, Holds (layout d j) (ws j)

namespace Codec
variable {w : Nat} {ι D : Type} (C : Codec w ι D)

def encode (d : D) (j : ι) : BitVec w := pack w (C.layout d j)

/-- The bits of word `j` that a value like `d` is read from. -/
def readMask (d : D) (j : ι) : BitVec w := cover w (C.layout d j)

/-- One bit of one word flipped. -/
def flip [DecidableEq ι] (ws : ι → BitVec w) (j : ι) (i : Nat) : ι → BitVec w :=
  fun l => if l = j then ws l ^^^ BitVec.twoPow w i else ws l

theorem decode_encode {d : D} (h : C.Fits d) : C.decode (C.encode d) = some d :=
  (C.decode_iff (C.encode d) d).mpr ⟨h, fun j => holds_pack (C.fitting d j)⟩

theorem fits_of_decode {ws : ι → BitVec w} {d : D} (h : C.decode ws = some d) : C.Fits d :=
  ((C.decode_iff ws d).mp h).1

/-- What was decoded encodes to the words with the unread bits cleared. -/
theorem encode_of_decode {ws : ι → BitVec w} {d : D} (h : C.decode ws = some d) (j : ι) :
    C.encode d j = ws j &&& C.readMask d j :=
  ((holds_iff (C.fitting d j) (ws j)).mp (((C.decode_iff ws d).mp h).2 j)).symm

/-- The mask is the bits read: flipping a bit changes the outcome exactly when it is set. -/
theorem readMask_exact [DecidableEq ι] {ws : ι → BitVec w} {d : D} (h : C.decode ws = some d) (j : ι)
    {i : Nat} (hi : i < w) :
    (C.readMask d j).getLsbD i = true ↔ C.decode (flip ws j i) ≠ some d := by
  obtain ⟨hfits, hholds⟩ := (C.decode_iff ws d).mp h
  have hflip : C.decode (flip ws j i) = some d ↔ (C.readMask d j).getLsbD i = false := by
    rw [C.decode_iff, readMask, ← holds_flip_iff (C.fitting d j) (hholds j) hi]
    constructor
    · intro ⟨_, hall⟩
      have := hall j
      rwa [flip, if_pos rfl] at this
    · intro hj
      refine ⟨hfits, fun l => ?_⟩
      by_cases hl : l = j
      · rw [hl, flip, if_pos rfl]
        exact hj
      · rw [flip, if_neg hl]
        exact hholds l
  rw [ne_eq, hflip, Bool.not_eq_false]

end Codec

/-! ### Encoders -/

/-- An encoder that keeps every value in range, and of any other one what its fields have
room for. -/
structure Lossless {D E : Type} (encode : D → E) (Fits : D → Prop) (masked : D → D) : Prop where
  injective : ∀ d d', Fits d → Fits d' → encode d = encode d' → d = d'
  masks : ∀ d, encode d = encode (masked d)
  fits : ∀ d, Fits (masked d)

/-- It is enough that it tells apart what differs under the mask, and nothing else. -/
theorem Lossless.of_eq_iff {D E : Type} {encode : D → E} {Fits : D → Prop} {masked : D → D}
    (heq : ∀ d d', encode d = encode d' ↔ masked d = masked d') (hfits : ∀ d, Fits d ↔ masked d = d)
    (hmasked : ∀ d, masked (masked d) = masked d) : Lossless encode Fits masked where
  injective := fun d d' h h' henc => by
    rw [← (hfits d).mp h, ← (hfits d').mp h']
    exact (heq d d').mp henc
  masks := fun d => (heq d (masked d)).mpr (hmasked d).symm
  fits := fun d => (hfits (masked d)).mpr (hmasked d)

end Iommu.Lib
