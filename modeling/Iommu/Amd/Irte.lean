import Iommu.Bits
import Iommu.Lib.Spread

/-! Interrupt remapping table entries (`amd-iommu/src/irte.rs`).

The destination is in two chunks, sixteen bits of one dword and eight of the next. It
is documented as an id of 32 bits, and the setter drops the upper eight: a run of
setters is read back as it was given exactly when its last destination fits in 24
(`destination_exact_iff`). -/
namespace Iommu.Amd
open Lib Lib.Word

structure Irte where
  d0 : U32
  d1 : U32
  d2 : U32
  d3 : U32
  deriving DecidableEq, Repr

namespace Irte

def new : Irte := ⟨0#32, 0#32, 0#32, 0#32⟩

def valid (e : Irte) : Bool := e.d1 &&& (1#32 <<< 16) != 0#32

def withValid (v : Bool) (e : Irte) : Irte :=
  { e with d1 := (e.d1 &&& ~~~(1#32 <<< 16)) ||| (boolAs 32 v <<< 16) }

def destination (e : Irte) : U32 := (e.d0 &&& 0xffff#32) ||| ((e.d1 &&& 0xff#32) <<< 16)

def withDestination (dst : U32) (e : Irte) : Irte :=
  { e with
    d0 := (e.d0 &&& ~~~0xffff#32) ||| (dst &&& 0xffff#32)
    d1 := (e.d1 &&& ~~~0xff#32) ||| ((dst >>> 16) &&& 0xff#32) }

def vector (e : Irte) : U8 := e.d2.setWidth 8

def withVector (vector : U8) (e : Irte) : Irte :=
  { e with d2 := (e.d2 &&& ~~~0xff#32) ||| vector.setWidth 32 }

def words (e : Irte) : Dwords := ⟨e.d0, e.d1, e.d2, e.d3⟩

/-- `ref_from_bytes` of the type is given, as it is for the entries of the other crate. -/
def fromBytes {Err : Type} (refFromBytes : Nat → List U8 → Except Err Irte) (addr : Nat) (bytes : List U8) :
    Option Irte :=
  (refFromBytes addr bytes).toOption

/-! ### Dwords -/

def dword (e : Irte) : Dwords.At → U32
  | .d0 => e.d0
  | .d1 => e.d1
  | .d2 => e.d2
  | .d3 => e.d3

theorem dword_d1 (e : Irte) {x y : U32} (h : x = y) : dword { e with d1 := x } = Function.update e.dword .d1 y := by
  subst h
  funext j
  cases j <;> rfl

theorem dword_d2 (e : Irte) {x y : U32} (h : x = y) : dword { e with d2 := x } = Function.update e.dword .d2 y := by
  subst h
  funext j
  cases j <;> rfl

/-! ### Fields -/

inductive Field where
  | valid | destination | vector
  deriving DecidableEq

namespace Field

def Val : Field → Type
  | valid => Bool
  | destination => U32
  | vector => U8

def destinationChunks : List (Chunk Dwords.At U32) := [.part .d0 0 16 0, .part .d1 0 8 16]

def chunks : (f : Field) → List (Chunk Dwords.At f.Val)
  | valid => [.flag .d1 16]
  | destination => destinationChunks
  | vector => [.whole .d2 0 8]

def get : (f : Field) → Irte → f.Val
  | valid => Irte.valid
  | destination => Irte.destination
  | vector => Irte.vector

def set : (f : Field) → f.Val → Irte → Irte
  | valid => withValid
  | destination => withDestination
  | vector => withVector

/-- A destination loses its upper eight bits. -/
def kept : (f : Field) → f.Val → f.Val
  | destination => fun (dst : U32) => dst &&& 0xffffff#32
  | _ => id

/-! ### The destination -/

/-- The two parts of a destination, where they are in it. -/
def parts (d0 d1 : U32) : List Word.Field := [⟨0, 16, d0.extractLsb' 0 16⟩, ⟨16, 8, d1.extractLsb' 0 8⟩]

theorem parts_cover (d0 d1 : U32) : cover 32 (parts d0 d1) = 0xffffff#32 := by
  simp only [cover, parts, List.foldr]
  rfl

theorem destination_eq (e : Irte) : e.destination = pack 32 (parts e.d0 e.d1) := by
  have hlow : e.d0 &&& 0xffff#32 = place 32 0 (e.d0.extractLsb' 0 16) := and_mask (n := 16) 0 e.d0
  have hhigh : (e.d1 &&& 0xff#32) <<< 16 = place 32 16 (e.d1.extractLsb' 0 8) := mask_place 8 e.d1 16
  rw [Irte.destination, hlow, hhigh, parts, pack_cons, pack_cons, pack_nil, BitVec.or_zero]

/-- It is the destination that both parts are of, without its upper bits. -/
theorem destination_of (e : Irte) (dst : U32) (hlow : e.d0.extractLsb' 0 16 = dst.extractLsb' 0 16)
    (hhigh : e.d1.extractLsb' 0 8 = dst.extractLsb' 16 8) : e.destination = dst &&& 0xffffff#32 := by
  have hfit : Fitting 32 (extents (parts e.d0 e.d1)) := of_decide_eq_true rfl
  have hholds : Holds (parts e.d0 e.d1) dst := by
    rw [parts, holds_cons, holds_cons, holds_nil]
    exact ⟨hlow.symm, hhigh.symm, trivial⟩
  rw [destination_eq, pack_of_holds hfit (parts_cover e.d0 e.d1) hholds]

theorem dword_withDestination (dst : U32) (e : Irte) :
    (withDestination dst e).dword = Chunk.writes destinationChunks dst e.dword := by
  have hlow : (withDestination dst e).d0 = put 0 (dst.extractLsb' 0 16) e.d0 := put_in_place 0 16 e.d0 dst
  have hbyte : (dst >>> 16) &&& 0xff#32 = (dst.extractLsb' 16 8).setWidth 32 := by
    have hplace := shift_mask_place 8 dst 16 0
    rwa [BitVec.shiftLeft_zero, place_zero] at hplace
  have hhigh : (withDestination dst e).d1 = put 0 (dst.extractLsb' 16 8) e.d1 := by
    rw [withDestination, hbyte]
    exact put_low e.d1 (dst.extractLsb' 16 8)
  funext j
  cases j with
  | d0 => exact hlow
  | d1 => exact hhigh
  | d2 | d3 => rfl

theorem destination_field : Chunk.Field destinationChunks dword Irte.destination withDestination
    fun dst => dst &&& 0xffffff#32 where
  get_set := fun dst e => by
    have happart : destinationChunks.Pairwise Chunk.Apart := of_decide_eq_true rfl
    have hwords := dword_withDestination dst e
    refine destination_of _ dst ?_ ?_
    · have hchunk := Chunk.slice_writes happart dst e.dword (c := .part .d0 0 16 0) List.mem_cons_self (by decide)
      rwa [← hwords] at hchunk
    · have hchunk := Chunk.slice_writes happart dst e.dword (c := .part .d1 0 8 16)
        (List.mem_cons_of_mem _ List.mem_cons_self) (by decide)
      rwa [← hwords] at hchunk
  get_congr := fun e e' h => by
    have hlow : e.d0.extractLsb' 0 16 = e'.d0.extractLsb' 0 16 := h _ List.mem_cons_self
    have hhigh : e.d1.extractLsb' 0 8 = e'.d1.extractLsb' 0 8 := h _ (List.mem_cons_of_mem _ List.mem_cons_self)
    rw [destination_eq, destination_eq, parts, parts, hlow, hhigh]
  words_set := dword_withDestination

/-! ### The record -/

theorem field (f : Field) : Chunk.Field f.chunks dword f.get f.set f.kept := by
  cases f with
  | valid =>
    exact Chunk.flag_field (by decide) (fun e => flag_slice e.d1 16) fun v e =>
      dword_d1 e (put_shift e.d1 16 (BitVec.ofBool v))
  | destination => exact destination_field
  | vector =>
    exact Chunk.whole_field (by decide) (fun e => setWidth_eq_slice 8 e.d2) fun v e => dword_d2 e (put_low e.d2 v)

end Field

def record : Spread 32 Dwords.At Irte Field where
  Val := Field.Val
  chunks := Field.chunks
  words := dword
  get := Field.get
  set := Field.set
  kept := Field.kept
  field := Field.field

theorem apart : record.Apart := by
  intro f g
  cases f <;> cases g <;> decide

/-- What is kept of a value is the value, but for a destination above 24 bits. -/
theorem kept_iff (f : Field) (v : f.Val) :
    f.kept v = v ↔ ∀ dst, (⟨f, v⟩ : record.slots.Call) = ⟨.destination, dst⟩ → BitVec.toNat dst < 2 ^ 24 := by
  cases f with
  | destination =>
    have hmask : 0xffffff#32 = mask 32 0 24 := rfl
    have hself := and_mask_eq_self_iff (n := 24) 0 (v : U32) (by decide)
    rw [← hmask] at hself
    constructor
    · rintro h dst ⟨⟩
      have hfits := (hself.mp h).2
      omega
    · intro h
      have hfits := h v rfl
      exact hself.mpr (by omega)
  | valid | vector => exact iff_of_true rfl fun dst h => nomatch h

/-- **When an entry returns what it was given**: when the last destination it was given
fits in 24 bits. -/
theorem destination_exact_iff (e : Irte) (cs : List record.slots.Call) : record.slots.Exact e cs ↔
    ∀ dst before after, cs = before ++ ⟨.destination, dst⟩ :: after → record.slots.Unset .destination after →
      BitVec.toNat dst < 2 ^ 24 := by
  rw [(record.faithful apart e cs).exact_iff]
  constructor
  · intro h dst before after hcs hafter
    exact (kept_iff .destination dst).mp (h .destination dst before after hcs hafter) dst rfl
  · intro h f v before after hcs hafter
    refine (kept_iff f v).mpr fun dst hcall => ?_
    cases hcall
    exact h dst before after hcs hafter

/-- The destination of the module's documentation comes back without its upper byte. -/
theorem documented_destination :
    (withValid true (withVector 0x51#8 (withDestination 0x01020304#32 new))).destination = 0x00020304#32 ∧
      ¬record.slots.Exact new
        [⟨.destination, (0x01020304#32 : U32)⟩, ⟨.vector, (0x51#8 : U8)⟩, ⟨.valid, true⟩] := by
  refine ⟨rfl, fun h => ?_⟩
  have hread : (0x00020304#32 : U32) = 0x01020304#32 :=
    h .destination (0x01020304#32 : U32) [] _ rfl
      (List.forall_mem_cons.mpr ⟨Field.noConfusion, List.forall_mem_singleton.mpr Field.noConfusion⟩)
  exact absurd hread (by decide)

end Irte
end Iommu.Amd
