import Iommu.Intel.Irte
import Iommu.Lib.Spread

/-! Interrupt remapping table entries as spread records.

Which bits each field with a setter is kept in. The posted descriptor address is in
three chunks, its two parts and the mode bit that is set with it, and meets the
destination in the first of them, so a run stays within the fields of one format. -/
namespace Iommu.Intel
open Lib Lib.Word

/-! ### Codes -/

theorem DeliveryMode.fromBits_masked (v : U8) : fromBits (v &&& 0x7#8) = fromBits v := by
  rw [fromBits, fromBits, BitVec.and_assoc, BitVec.and_self]

theorem DeliveryMode.fromBits_code (dlm : DeliveryMode) :
    fromBits ((dlm.bits.setWidth 3).setWidth 8) = fromBits dlm.bits := by
  rw [← and_mask_zero]
  exact fromBits_masked dlm.bits

/-- A code is three bits wide without a mask. -/
theorem DeliveryMode.bits_wide (dlm : DeliveryMode) : dlm.bits.setWidth 64 = (dlm.bits.setWidth 3).setWidth 64 := by
  cases dlm with
  | reserved v =>
    have hmask : 0x7#8 = mask 8 0 3 := rfl
    have hlow : v &&& mask 8 0 3 = (v.setWidth 3).setWidth 8 := and_mask_zero v
    rw [bits, hmask, hlow, setWidth_through (v.setWidth 3) (by decide),
      BitVec.setWidth_setWidth_of_le (v.setWidth 3) (by decide), BitVec.setWidth_eq]
  | _ => rfl

theorem SourceQualifier.bits_wide (sq : SourceQualifier) :
    sq.bits.setWidth 64 = (sq.bits.setWidth 2).setWidth 64 := by
  cases sq <;> rfl

theorem SourceQualifier.fromBits_code (sq : SourceQualifier) :
    fromBits ((sq.bits.setWidth 2).setWidth 8) = sq := by
  cases sq <;> rfl

theorem SourceValidationType.bits_wide (svt : SourceValidationType) :
    svt.bits.setWidth 64 = (svt.bits.setWidth 2).setWidth 64 := by
  cases svt <;> rfl

theorem SourceValidationType.fromBits_code (svt : SourceValidationType) :
    fromBits ((svt.bits.setWidth 2).setWidth 8) = svt := by
  cases svt <;> rfl

namespace Irte

/-! ### Qwords -/

inductive Qword where
  | low | high
  deriving DecidableEq

def qword (e : Irte) : Qword → U64
  | .low => e.low
  | .high => e.high

theorem qword_low (e : Irte) {x y : U64} (h : x = y) :
    qword { e with low := x } = Function.update e.qword .low y := by
  subst h
  funext j
  cases j <;> rfl

theorem qword_high (e : Irte) {x y : U64} (h : x = y) :
    qword { e with high := x } = Function.update e.qword .high y := by
  subst h
  funext j
  cases j <;> rfl

/-! ### Fields -/

inductive Field where
  | present | triggerModeLevel | deliveryMode | vector | destination
  | sourceId | sourceQualifier | sourceValidation
  | urgent | postedDescriptorAddr
  deriving DecidableEq

namespace Field

def Val : Field → Type
  | deliveryMode => DeliveryMode
  | vector => U8
  | destination => U32
  | sourceId => U16
  | sourceQualifier => SourceQualifier
  | sourceValidation => SourceValidationType
  | postedDescriptorAddr => U64
  | _ => Bool

/-- The low part of an address, the mode bit and its high part. -/
def addressChunks : List (Chunk Qword U64) := [.part .low 38 26 6, .ones .low 15, .part .high 32 32 32]

def chunks : (f : Field) → List (Chunk Qword f.Val)
  | present => [.flag .low 0]
  | triggerModeLevel => [.flag .low 4]
  | deliveryMode => [.coded .low 5 3 DeliveryMode.bits]
  | vector => [.whole .low 16 8]
  | destination => [.whole .low 32 32]
  | sourceId => [.whole .high 0 16]
  | sourceQualifier => [.coded .high 16 2 SourceQualifier.bits]
  | sourceValidation => [.coded .high 18 2 SourceValidationType.bits]
  | urgent => [.flag .low 14]
  | postedDescriptorAddr => addressChunks

def get : (f : Field) → Irte → f.Val
  | present => Irte.present
  | triggerModeLevel => Irte.triggerModeLevel
  | deliveryMode => Irte.deliveryMode
  | vector => Irte.vector
  | destination => destinationId
  | sourceId => Irte.sourceId
  | sourceQualifier => Irte.sourceQualifier
  | sourceValidation => Irte.sourceValidation
  | urgent => Irte.urgent
  | postedDescriptorAddr => Irte.postedDescriptorAddr

def set : (f : Field) → f.Val → Irte → Irte
  | present => withPresent
  | triggerModeLevel => withTriggerModeLevel
  | deliveryMode => withDeliveryMode
  | vector => withVector
  | destination => withDestination
  | sourceId => withSourceId
  | sourceQualifier => withSourceQualifier
  | sourceValidation => withSourceValidation
  | urgent => withUrgent
  | postedDescriptorAddr => withPostedDescriptorAddr

/-- An address loses its low six bits, a delivery mode is decoded again. -/
def kept : (f : Field) → f.Val → f.Val
  | deliveryMode => fun (dlm : DeliveryMode) => DeliveryMode.fromBits dlm.bits
  | postedDescriptorAddr => fun (addr : U64) => addr &&& ~~~0x3f#64
  | _ => id

/-- The fields that a mode interprets. -/
def usedIn : IrteMode → Field → Bool
  | .remapped, urgent | .remapped, postedDescriptorAddr => false
  | .posted, triggerModeLevel | .posted, deliveryMode | .posted, destination => false
  | _, _ => true

/-! ### The posted address -/

/-- The two parts of an address, where they are in it. -/
def address (low high : U64) : List Word.Field :=
  [⟨32, 32, high.extractLsb' 32 32⟩, ⟨6, 26, low.extractLsb' 38 26⟩]

theorem address_cover (low high : U64) : cover 64 (address low high) = ~~~0x3f#64 := by
  simp only [cover, address, List.foldr]
  rfl

theorem postedDescriptorAddr_eq (e : Irte) : e.postedDescriptorAddr = pack 64 (address e.low e.high) := by
  have hhigh : e.postedAddrHigh = e.high.extractLsb' 32 32 :=
    extractBits_full e.high 63 32 32 rfl (by decide) (by decide)
  have hlow : e.postedAddrLow = place 32 6 (e.low.extractLsb' 38 26) := by
    rw [postedAddrLow, setWidth_extractBits 26 e.low rfl (by decide) (by decide), place]
  rw [Irte.postedDescriptorAddr, hhigh, hlow, setWidth_place 6 _ (by decide) (by decide), address, pack_cons,
    pack_cons, pack_nil, BitVec.or_zero]
  rfl

/-- It is the address that both parts are of, without its low bits. -/
theorem postedDescriptorAddr_of (e : Irte) (addr : U64) (hlow : e.low.extractLsb' 38 26 = addr.extractLsb' 6 26)
    (hhigh : e.high.extractLsb' 32 32 = addr.extractLsb' 32 32) :
    e.postedDescriptorAddr = addr &&& ~~~0x3f#64 := by
  have hfit : Fitting 64 (extents (address e.low e.high)) := of_decide_eq_true rfl
  have hholds : Holds (address e.low e.high) addr := by
    rw [address, holds_cons, holds_cons, holds_nil]
    exact ⟨hhigh.symm, hlow.symm, trivial⟩
  rw [postedDescriptorAddr_eq, pack_of_holds hfit (address_cover e.low e.high) hholds]

theorem withPostedDescriptorAddr_low (addr : U64) (e : Irte) :
    (withPostedDescriptorAddr addr e).low = put 15 1#1 (put 38 (addr.extractLsb' 6 26) e.low) := by
  have hplace : ((addr >>> 6) &&& 0x3ffffff#64) <<< 38 = place 64 38 (addr.extractLsb' 6 26) :=
    shift_mask_place 26 addr 6 38
  rw [withPostedDescriptorAddr, hplace]
  exact put_ones (put 38 (addr.extractLsb' 6 26) e.low) 15 1

theorem withPostedDescriptorAddr_high (addr : U64) (e : Irte) :
    (withPostedDescriptorAddr addr e).high = put 32 (addr.extractLsb' 32 32) e.high := by
  have hshift : addr >>> 32 = (addr.extractLsb' 32 32).setWidth 64 := by
    rw [shift_eq_place 32 addr 32 rfl, place_zero]
  rw [withPostedDescriptorAddr, hshift]
  exact put_shift e.high 32 (addr.extractLsb' 32 32)

theorem address_field : Chunk.Field addressChunks qword Irte.postedDescriptorAddr withPostedDescriptorAddr
    fun addr => addr &&& ~~~0x3f#64 where
  get_set := fun addr e => by
    refine postedDescriptorAddr_of _ addr ?_ ?_
    · rw [withPostedDescriptorAddr_low, slice_put_apart 38 15 _ _ (by decide), slice_put 38 _ _ (by decide)]
    · rw [withPostedDescriptorAddr_high, slice_put 32 _ _ (by decide)]
  get_congr := fun e e' h => by
    have hlow : e.low.extractLsb' 38 26 = e'.low.extractLsb' 38 26 := h _ List.mem_cons_self
    have hhigh : e.high.extractLsb' 32 32 = e'.high.extractLsb' 32 32 :=
      h _ (List.mem_cons_of_mem _ (List.mem_cons_of_mem _ List.mem_cons_self))
    rw [postedDescriptorAddr_eq, postedDescriptorAddr_eq, address, address, hlow, hhigh]
  words_set := fun addr e => by
    funext j
    cases j with
    | low => exact withPostedDescriptorAddr_low addr e
    | high => exact withPostedDescriptorAddr_high addr e

/-! ### The record -/

theorem field (f : Field) : Chunk.Field f.chunks qword f.get f.set f.kept := by
  cases f with
  | present => exact Chunk.flag_field (by decide) (fun e => flag_slice e.low 0) fun v e => qword_low e (put_flag_low e.low v)
  | triggerModeLevel =>
    exact Chunk.flag_field (by decide) (fun e => flag_slice e.low 4) fun v e => qword_low e (put_flag e.low 4 v)
  | deliveryMode =>
    refine Chunk.coded_field (by decide) (fun e => ?_) (fun dlm e => qword_low e ?_) DeliveryMode.fromBits_code
    · exact congrArg DeliveryMode.fromBits (setWidth_extractBits 3 e.low rfl (by decide) (by decide))
    · exact put_code e.low 5 3 (DeliveryMode.bits dlm) (DeliveryMode.bits_wide dlm)
  | vector =>
    refine Chunk.whole_field (by decide) (fun e => ?_) fun v e => qword_low e (put_shift e.low 16 v)
    exact extractBits_full e.low 23 16 8 rfl (by decide) (by decide)
  | destination =>
    refine Chunk.whole_field (by decide) (fun e => ?_) fun v e => qword_low e (put_shift e.low 32 v)
    exact extractBits_full e.low 63 32 32 rfl (by decide) (by decide)
  | sourceId =>
    exact Chunk.whole_field (by decide) (fun e => setWidth_eq_slice 16 e.high) fun v e => qword_high e (put_low e.high v)
  | sourceQualifier =>
    refine Chunk.coded_field (by decide) (fun e => ?_) (fun sq e => qword_high e ?_) SourceQualifier.fromBits_code
    · exact congrArg SourceQualifier.fromBits (setWidth_extractBits 2 e.high rfl (by decide) (by decide))
    · exact put_code e.high 16 2 (SourceQualifier.bits sq) (SourceQualifier.bits_wide sq)
  | sourceValidation =>
    refine Chunk.coded_field (by decide) (fun e => ?_) (fun svt e => qword_high e ?_) SourceValidationType.fromBits_code
    · exact congrArg SourceValidationType.fromBits (setWidth_extractBits 2 e.high rfl (by decide) (by decide))
    · exact put_code e.high 18 2 (SourceValidationType.bits svt) (SourceValidationType.bits_wide svt)
  | urgent =>
    exact Chunk.flag_field (by decide) (fun e => flag_slice e.low 14) fun v e => qword_low e (put_flag e.low 14 v)
  | postedDescriptorAddr => exact address_field

end Field

/-- The entry as a record of the fields of both formats. -/
def record : Spread 64 Qword Irte Field where
  Val := Field.Val
  chunks := Field.chunks
  words := qword
  get := Field.get
  set := Field.set
  kept := Field.kept
  field := Field.field

/-- The fields of one format. -/
abbrev format (mode : IrteMode) : Slots Irte {f : Field // f.usedIn mode} := record.on fun f => f.usedIn mode

theorem format_apart (mode : IrteMode) : record.ApartOn fun f => f.usedIn mode := by
  intro f g
  cases mode <;> cases f <;> cases g <;> decide

/-! ### The mode -/

theorem mode_eq (e : Irte) : e.mode = .fromBit (e.low.getLsbD 15) :=
  congrArg IrteMode.fromBit (flag_eq e.low 15)

theorem mode_iff (e : Irte) (b : Bool) : e.mode = .fromBit b ↔ e.low.getLsbD 15 = b := by
  rw [mode_eq]
  cases b <;> cases e.low.getLsbD 15 <;> decide

/-- No setter of a format changes the bit of the mode. -/
theorem mode_kept (b : Bool) (f : Field) (v : f.Val) (h : f.usedIn (.fromBit b)) :
    ∀ c ∈ record.chunks f, c.Keeps v .low 15 b := by
  cases f with
  | postedDescriptorAddr =>
    cases b with
    | false => exact absurd h (by decide)
    | true =>
      have hset : (1#1).getLsbD 0 = true := rfl
      refine List.forall_mem_cons.mpr ⟨Chunk.keeps_of_out rfl, ?_⟩
      refine List.forall_mem_cons.mpr ⟨fun _ => hset, ?_⟩
      exact List.forall_mem_singleton.mpr (Chunk.keeps_of_out rfl)
  | _ => exact List.forall_mem_singleton.mpr (Chunk.keeps_of_out rfl)

theorem mode_run (b : Bool) (e : Irte) (cs : List (format (.fromBit b)).Call) (h : e.mode = .fromBit b) :
    ((format (.fromBit b)).run e cs).mode = .fromBit b := by
  rw [mode_iff] at h ⊢
  exact record.getLsbD_run_on (by decide) (fun f v => mode_kept b f v) e cs h

/-- **An entry stays in the format** that it is built in, and its fields are independent. -/
theorem format_kept :
    (∀ cs : List (format .remapped).Call, ((format .remapped).run newRemapped cs).mode = .remapped ∧
      (format .remapped).Faithful newRemapped cs) ∧
    ∀ cs : List (format .posted).Call, ((format .posted).run newPosted cs).mode = .posted ∧
      (format .posted).Faithful newPosted cs :=
  ⟨fun cs => ⟨mode_run false newRemapped cs rfl, record.faithful_on (format_apart .remapped) newRemapped cs⟩,
    fun cs => ⟨mode_run true newPosted cs rfl, record.faithful_on (format_apart .posted) newPosted cs⟩⟩

end Irte
end Iommu.Intel
