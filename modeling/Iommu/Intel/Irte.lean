import Iommu.Bits

/-! Interrupt remapping table entries (`intel-iommu/src/irte.rs`).

An entry is in one of two formats, told apart by bit 15. They share the vector and the
source fields; the destination of a remapped entry lies where a posted one has the low
part of its descriptor address, whose high part is in the other qword. -/
namespace Iommu.Intel
open Lib

/-! ### Codes -/

inductive IrteMode where
  | remapped | posted
  deriving DecidableEq, Repr

def IrteMode.fromBit (im : Bool) : IrteMode := if im then posted else remapped

inductive DeliveryMode where
  | fixed | lowestPriority | smi | nmi | init | extInt
  | reserved (v : U8)
  deriving DecidableEq, Repr

namespace DeliveryMode

def fromBits (v : U8) : DeliveryMode :=
  match v &&& 0x7#8 with
  | 0#8 => fixed
  | 1#8 => lowestPriority
  | 2#8 => smi
  | 4#8 => nmi
  | 5#8 => init
  | 7#8 => extInt
  | other => reserved other

def bits : DeliveryMode → U8
  | fixed => 0#8
  | lowestPriority => 1#8
  | smi => 2#8
  | nmi => 4#8
  | init => 5#8
  | extInt => 7#8
  | reserved v => v &&& 0x7#8

end DeliveryMode

inductive SourceValidationType where
  | noValidation | reserved01 | verifyBus | verifyFull
  deriving DecidableEq, Repr

namespace SourceValidationType

def fromBits (v : U8) : SourceValidationType :=
  match v &&& 0x3#8 with
  | 0#8 => noValidation
  | 1#8 => reserved01
  | 2#8 => verifyBus
  | _ => verifyFull

def bits : SourceValidationType → U8
  | noValidation => 0#8
  | reserved01 => 1#8
  | verifyBus => 2#8
  | verifyFull => 3#8

end SourceValidationType

inductive SourceQualifier where
  | fullId | ignoreFunction | busOnly | reserved
  deriving DecidableEq, Repr

namespace SourceQualifier

def fromBits (v : U8) : SourceQualifier :=
  match v &&& 0x3#8 with
  | 0#8 => fullId
  | 1#8 => ignoreFunction
  | 2#8 => busOnly
  | _ => reserved

def bits : SourceQualifier → U8
  | fullId => 0#8
  | ignoreFunction => 1#8
  | busOnly => 2#8
  | reserved => 3#8

end SourceQualifier

/-! ### Entries -/

structure Irte where
  low : U64
  high : U64
  deriving DecidableEq, Repr

namespace Irte

def newRemapped : Irte := ⟨0#64, 0#64⟩

def newPosted : Irte := ⟨1#64 <<< 15, 0#64⟩

def mode (e : Irte) : IrteMode := .fromBit (e.low &&& (1#64 <<< 15) != 0#64)

def present (e : Irte) : Bool := e.low &&& 1#64 != 0#64

def withPresent (p : Bool) (e : Irte) : Irte :=
  { e with low := (e.low &&& ~~~1#64) ||| (boolAs 8 p).setWidth 64 }

def faultDisable (e : Irte) : Bool := e.low &&& 2#64 != 0#64

def destinationModeLogical (e : Irte) : Bool := e.low &&& 4#64 != 0#64

def redirectionHint (e : Irte) : Bool := e.low &&& 8#64 != 0#64

def triggerModeLevel (e : Irte) : Bool := e.low &&& 0x10#64 != 0#64

def withTriggerModeLevel (level : Bool) (e : Irte) : Irte :=
  { e with low := (e.low &&& ~~~0x10#64) ||| ((boolAs 8 level).setWidth 64 <<< 4) }

def deliveryMode (e : Irte) : DeliveryMode := .fromBits ((extractBits e.low 7 5).setWidth 8)

/-- The code is not masked again. -/
def withDeliveryMode (dlm : DeliveryMode) (e : Irte) : Irte :=
  { e with low := (e.low &&& ~~~(0x7#64 <<< 5)) ||| (dlm.bits.setWidth 64 <<< 5) }

def vector (e : Irte) : U8 := (extractBits e.low 23 16).setWidth 8

def withVector (vector : U8) (e : Irte) : Irte :=
  { e with low := (e.low &&& ~~~(0xff#64 <<< 16)) ||| (vector.setWidth 64 <<< 16) }

def destinationId (e : Irte) : U32 := (extractBits e.low 63 32).setWidth 32

def withDestination (dst : U32) (e : Irte) : Irte :=
  { e with low := (e.low &&& ~~~(0xffffffff#64 <<< 32)) ||| (dst.setWidth 64 <<< 32) }

def sourceId (e : Irte) : U16 := e.high.setWidth 16

def withSourceId (sid : U16) (e : Irte) : Irte :=
  { e with high := (e.high &&& ~~~0xffff#64) ||| sid.setWidth 64 }

def sourceQualifier (e : Irte) : SourceQualifier := .fromBits ((extractBits e.high 17 16).setWidth 8)

def withSourceQualifier (sq : SourceQualifier) (e : Irte) : Irte :=
  { e with high := (e.high &&& ~~~(0x3#64 <<< 16)) ||| (sq.bits.setWidth 64 <<< 16) }

def sourceValidation (e : Irte) : SourceValidationType := .fromBits ((extractBits e.high 19 18).setWidth 8)

def withSourceValidation (svt : SourceValidationType) (e : Irte) : Irte :=
  { e with high := (e.high &&& ~~~(0x3#64 <<< 18)) ||| (svt.bits.setWidth 64 <<< 18) }

/-! ### Posted format -/

def urgent (e : Irte) : Bool := e.low &&& (1#64 <<< 14) != 0#64

def withUrgent (urg : Bool) (e : Irte) : Irte :=
  { e with low := (e.low &&& ~~~(1#64 <<< 14)) ||| ((boolAs 8 urg).setWidth 64 <<< 14) }

def postedAddrLow (e : Irte) : U32 := (extractBits e.low 63 38).setWidth 32 <<< 6

def postedAddrHigh (e : Irte) : U32 := (extractBits e.high 63 32).setWidth 32

def postedDescriptorAddr (e : Irte) : U64 :=
  (e.postedAddrHigh.setWidth 64 <<< 32) ||| e.postedAddrLow.setWidth 64

/-- It sets the mode bit too. -/
def withPostedDescriptorAddr (addr : U64) (e : Irte) : Irte :=
  { e with
    low := (e.low &&& ~~~(0x3ffffff#64 <<< 38)) ||| (((addr >>> 6) &&& 0x3ffffff#64) <<< 38) |||
      (1#64 <<< 15)
    high := (e.high &&& ~~~(0xffffffff#64 <<< 32)) ||| ((addr >>> 32) <<< 32) }

def words (e : Irte) : Words := ⟨e.low, e.high⟩

end Irte
end Iommu.Intel
