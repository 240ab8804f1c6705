import Iommu.Bits
import Iommu.Lib.Codec

/-! Event log entries (`amd-iommu/src/events.rs`).

A page fault is packed into four dwords and unpacked from them, any other event
passes through as its dwords. Page faults are a codec whose layout is the same in
both directions, and the round trips of events follow from it (`event_round_trip`). -/
namespace Iommu.Amd.Events
open Lib Lib.Word

structure EventCode where
  value : U8
  deriving DecidableEq, Repr

namespace EventCode

def ioPageFault : EventCode := ⟨0x2#8⟩

def fromDword1 (d : U32) : EventCode := ⟨(d >>> 28).setWidth 8⟩

end EventCode

structure PageFaultEvent where
  deviceId : U16
  domainId : U32
  addr : U64
  write : Bool
  permission : Bool
  reserved : Bool
  rz : Bool
  nx : Bool
  guestNested : Bool
  translation : Bool
  interrupt : Bool
  deriving DecidableEq, Repr

namespace PageFaultEvent

def words (f : PageFaultEvent) : Dwords :=
  let d0 := f.deviceId.setWidth 32 ||| (boolAs 32 f.guestNested <<< 16) ||| (boolAs 32 f.nx <<< 17) |||
    (boolAs 32 f.rz <<< 18) ||| (boolAs 32 f.translation <<< 19) ||| (boolAs 32 f.reserved <<< 20) |||
    (boolAs 32 f.permission <<< 21) ||| (boolAs 32 f.write <<< 22) ||| (boolAs 32 f.interrupt <<< 23)
  let d1 := EventCode.ioPageFault.value.setWidth 32 <<< 28 ||| (f.domainId &&& 0xfffff#32)
  let d2 := (f.addr >>> 12).setWidth 32 &&& 0xfffff#32
  let d3 := (f.addr >>> 32).setWidth 32
  ⟨d0, d1, d2, d3⟩

/-- The payload that `Event::from_words` makes. -/
def fromWords (words : Dwords) : PageFaultEvent where
  deviceId := (words.d0 &&& 0xffff#32).setWidth 16
  domainId := words.d1 &&& 0xfffff#32
  addr := (words.d3.setWidth 64 <<< 32) ||| ((words.d2 &&& 0xfffff#32).setWidth 64 <<< 12)
  guestNested := words.d0 &&& (1#32 <<< 16) != 0#32
  nx := words.d0 &&& (1#32 <<< 17) != 0#32
  rz := words.d0 &&& (1#32 <<< 18) != 0#32
  translation := words.d0 &&& (1#32 <<< 19) != 0#32
  reserved := words.d0 &&& (1#32 <<< 20) != 0#32
  permission := words.d0 &&& (1#32 <<< 21) != 0#32
  write := words.d0 &&& (1#32 <<< 22) != 0#32
  interrupt := words.d0 &&& (1#32 <<< 23) != 0#32

end PageFaultEvent

inductive Event where
  | pageFault (f : PageFaultEvent)
  | raw (code : EventCode) (words : Dwords)
  deriving DecidableEq, Repr

namespace Event

def code : Event → EventCode
  | pageFault _ => .ioPageFault
  | raw code _ => code

def words : Event → Dwords
  | pageFault f => f.words
  | raw _ words => words

def fromWords (words : Dwords) : Event :=
  let code := EventCode.fromDword1 words.d1
  if code = .ioPageFault then pageFault (.fromWords words) else raw code words

end Event

/-! ### The codec of page faults -/

namespace PageFaultEvent

def layout (f : PageFaultEvent) : Dwords.At → List Field
  | .d0 => [⟨0, 16, f.deviceId⟩, ⟨16, 1, BitVec.ofBool f.guestNested⟩, ⟨17, 1, BitVec.ofBool f.nx⟩,
      ⟨18, 1, BitVec.ofBool f.rz⟩, ⟨19, 1, BitVec.ofBool f.translation⟩, ⟨20, 1, BitVec.ofBool f.reserved⟩,
      ⟨21, 1, BitVec.ofBool f.permission⟩, ⟨22, 1, BitVec.ofBool f.write⟩, ⟨23, 1, BitVec.ofBool f.interrupt⟩]
  | .d1 => [⟨28, 4, 0x2#4⟩, ⟨0, 20, f.domainId.extractLsb' 0 20⟩]
  | .d2 => [⟨0, 20, f.addr.extractLsb' 12 20⟩]
  | .d3 => [⟨0, 32, f.addr.extractLsb' 32 32⟩]

/-- The bounds of the fields. -/
def Fits (f : PageFaultEvent) : Prop := f.domainId.toNat < 2 ^ 20 ∧ f.addr.toNat % 4096 = 0

theorem layout_fitting (f : PageFaultEvent) (j : Dwords.At) : Fitting 32 (extents (f.layout j)) := by
  cases j <;> exact of_decide_eq_true rfl

theorem words_eq (f : PageFaultEvent) : f.words =
    ⟨pack 32 (f.layout .d0), pack 32 (f.layout .d1), pack 32 (f.layout .d2), pack 32 (f.layout .d3)⟩ := by
  have hdomain := mask_place 20 f.domainId 0
  have haddr := cast_mask_place 20 f.addr 12 0 (show 20 ≤ 32 by decide)
  simp only [layout, pack_cons, pack_nil, BitVec.or_zero, ← BitVec.or_assoc, ← hdomain, ← haddr]
  simp only [← setWidth_shift, place_zero, BitVec.shiftLeft_zero]
  rfl

theorem code_iff (d : U32) : EventCode.fromDword1 d = .ioPageFault ↔ d.extractLsb' 28 4 = 0x2#4 := by
  have hcode : ∀ x : BitVec 4, x.setWidth 8 = 0x2#8 ↔ x = 0x2#4 := by decide
  rw [EventCode.fromDword1, top_nibble, EventCode.ioPageFault, EventCode.mk.injEq, hcode]

theorem domain_iff (d x : U32) :
    d &&& 0xfffff#32 = x ↔ x.toNat < 2 ^ 20 ∧ d.extractLsb' 0 20 = x.extractLsb' 0 20 := by
  have hmask : 0xfffff#32 = mask 32 0 20 := rfl
  rw [hmask, and_mask_zero, setWidth_eq_iff _ x (by decide), setWidth_eq_slice]

/-- What a payload is decoded from. -/
theorem fromWords_iff (ws : Dwords) (f : PageFaultEvent) :
    fromWords ws = f ↔ f.Fits ∧ Holds (f.layout .d0) ws.d0 ∧ ws.d1.extractLsb' 0 20 = f.domainId.extractLsb' 0 20 ∧
      Holds (f.layout .d2) ws.d2 ∧ Holds (f.layout .d3) ws.d3 := by
  cases f with
  | mk deviceId domainId addr write permission reserved rz nx guestNested translation interrupt =>
    simp only [fromWords, mk.injEq, Fits, layout, holds_cons, holds_nil, and_true, low_half, domain_iff,
      split_page_iff, flag_eq, slice_flag_iff, BitVec.extractLsb'_eq_self]
    simp only [and_assoc, and_left_comm, and_comm]

/-- The dwords with the given values. -/
def dwords (ws : Dwords.At → U32) : Dwords := ⟨ws .d0, ws .d1, ws .d2, ws .d3⟩

/-- The values of dwords. -/
def values (w : Dwords) : Dwords.At → U32
  | .d0 => w.d0
  | .d1 => w.d1
  | .d2 => w.d2
  | .d3 => w.d3

/-- The payload of dwords that carry the page fault code. -/
def decode (ws : Dwords.At → U32) : Option PageFaultEvent :=
  if EventCode.fromDword1 (ws .d1) = .ioPageFault then some (fromWords (dwords ws)) else none

theorem decode_iff (ws : Dwords.At → U32) (f : PageFaultEvent) :
    decode ws = some f ↔ f.Fits ∧ ∀ j, Holds (f.layout j) (ws j) := by
  have hcode : decode ws = some f ↔ (ws .d1).extractLsb' 28 4 = 0x2#4 ∧ fromWords (dwords ws) = f := by
    simp only [decode, Option.ite_none_right_eq_some, code_iff, Option.some.injEq]
  have hd1 : Holds (f.layout .d1) (ws .d1) ↔ (ws .d1).extractLsb' 28 4 = 0x2#4 ∧
      (ws .d1).extractLsb' 0 20 = f.domainId.extractLsb' 0 20 := by
    rw [layout, holds_cons, holds_cons, holds_nil, and_true]
  rw [hcode, fromWords_iff]
  constructor
  · rintro ⟨hop, hfits, h0, h1, h2, h3⟩
    refine ⟨hfits, fun j => ?_⟩
    cases j with
    | d0 => exact h0
    | d1 => exact hd1.mpr ⟨hop, h1⟩
    | d2 => exact h2
    | d3 => exact h3
  · rintro ⟨hfits, hall⟩
    obtain ⟨hop, h1⟩ := hd1.mp (hall .d1)
    exact ⟨hop, hfits, hall .d0, h1, hall .d2, hall .d3⟩

def codec : Codec 32 Dwords.At PageFaultEvent where
  decode := decode
  layout := layout
  Fits := Fits
  fitting := layout_fitting
  decode_iff := decode_iff

theorem words_encode (f : PageFaultEvent) : f.words = dwords (codec.encode f) := f.words_eq

/-- The bits that the fields are read from. -/
def readMask : Dwords.At → U32
  | .d0 => ~~~0xff000000#32
  | .d1 => ~~~0x0ff00000#32
  | .d2 => ~~~0xfff00000#32
  | .d3 => BitVec.allOnes 32

theorem readMask_eq (f : PageFaultEvent) (j : Dwords.At) : codec.readMask f j = readMask j := by
  show cover 32 (f.layout j) = _
  cases j <;> simp only [cover, layout, List.foldr] <;> rfl

end PageFaultEvent

/-! ### Events -/

namespace Event

/-- A page fault within its bounds, or dwords with the code they carry, which is
another one. -/
def Normal : Event → Prop
  | pageFault f => f.Fits
  | raw code words => code = .fromDword1 words.d1 ∧ code ≠ .ioPageFault

/-- The dwords without the bits that no field of a page fault is read from: 31:24 of
dword 0, 27:20 of dword 1 and 31:20 of dword 2. -/
def cleared (w : Dwords) : Dwords :=
  ⟨w.d0 &&& ~~~0xff000000#32, w.d1 &&& ~~~0x0ff00000#32, w.d2 &&& ~~~0xfff00000#32, w.d3⟩

theorem fromWords_fault (w : Dwords) (h : EventCode.fromDword1 w.d1 = .ioPageFault) :
    fromWords w = pageFault (.fromWords w) := if_pos h

theorem fromWords_raw (w : Dwords) (h : EventCode.fromDword1 w.d1 ≠ .ioPageFault) :
    fromWords w = raw (.fromDword1 w.d1) w := if_neg h

theorem code_fromWords (w : Dwords) : (fromWords w).code = .fromDword1 w.d1 := by
  by_cases h : EventCode.fromDword1 w.d1 = .ioPageFault
  · rw [fromWords_fault w h, h]
    rfl
  · rw [fromWords_raw w h]
    rfl

/-- An event is a page fault when its dwords are decoded to one. -/
theorem decode_iff_fault (ws : Dwords.At → U32) (f : PageFaultEvent) :
    PageFaultEvent.decode ws = some f ↔ fromWords (PageFaultEvent.dwords ws) = pageFault f := by
  by_cases h : EventCode.fromDword1 (ws .d1) = .ioPageFault
  · rw [PageFaultEvent.decode, if_pos h, fromWords_fault (PageFaultEvent.dwords ws) h, Option.some.injEq,
      pageFault.injEq]
  · rw [PageFaultEvent.decode, if_neg h, fromWords_raw (PageFaultEvent.dwords ws) h]
    exact ⟨nofun, nofun⟩

theorem fromWords_words {e : Event} (h : e.Normal) : fromWords e.words = e := by
  cases e with
  | pageFault f =>
    rw [words, f.words_encode, ← decode_iff_fault]
    exact PageFaultEvent.codec.decode_encode h
  | raw code words =>
    obtain ⟨rfl, hraw⟩ := h
    exact fromWords_raw words hraw

theorem words_fromWords_fault {w : Dwords} (h : EventCode.fromDword1 w.d1 = .ioPageFault) :
    (fromWords w).words = cleared w := by
  have hdecode : PageFaultEvent.codec.decode (PageFaultEvent.values w) = some (.fromWords w) :=
    (decode_iff_fault (PageFaultEvent.values w) _).mpr (fromWords_fault w h)
  have hmasked := PageFaultEvent.codec.encode_of_decode hdecode
  simp only [PageFaultEvent.readMask_eq] at hmasked
  rw [fromWords_fault w h, words, PageFaultEvent.words_encode, PageFaultEvent.dwords, hmasked, hmasked, hmasked,
    hmasked]
  exact congrArg (Dwords.mk _ _ _) BitVec.and_allOnes

/-- **Event log entries round-trip**, from events and from dwords. -/
theorem event_round_trip : (∀ e : Event, e.Normal → fromWords e.words = e) ∧
    ∀ w : Dwords, (fromWords w).code = .fromDword1 w.d1 ∧
      ((fromWords w).code ≠ .ioPageFault → (fromWords w).words = w) ∧
      ((fromWords w).code = .ioPageFault → (fromWords w).words = cleared w) := by
  refine ⟨fun e h => fromWords_words h, fun w => ?_⟩
  rw [code_fromWords]
  refine ⟨rfl, fun h => ?_, words_fromWords_fault⟩
  rw [fromWords_raw w h]
  rfl

/-- A write fault comes back, and so does what its fields keep of dwords with every
unread bit set. -/
theorem write_fault_round_trip :
    fromWords (pageFault ⟨0x0bad#16, 0x12#32, 0x123456789000#64, true, true, false, false, false, false, false,
        false⟩).words =
      pageFault ⟨0x0bad#16, 0x12#32, 0x123456789000#64, true, true, false, false, false, false, false, false⟩ ∧
    (fromWords ⟨0xff600bad#32, 0x2ff00012#32, 0xfff56789#32, 0x1234#32⟩).words =
      ⟨0x00600bad#32, 0x20000012#32, 0x00056789#32, 0x1234#32⟩ := by
  obtain ⟨hevent, hdwords⟩ := event_round_trip
  exact ⟨hevent _ ⟨by decide, by decide⟩, (hdwords _).2.2 (by decide)⟩

end Event

end Iommu.Amd.Events
