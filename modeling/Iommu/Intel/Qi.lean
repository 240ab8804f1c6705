import Iommu.Bits

/-! Queued invalidation descriptors (`intel-iommu/src/qi.rs`).

Eight shapes share a 7-bit type, split over bits 11:9 and 3:0 of word 0. Seven are
128 bits and have both an encoder and a decoder; the last is 256 bits and is only
encoded. -/
namespace Iommu.Intel.Qi
open Lib

/-! ### Granularity and type -/

inductive Granularity where
  | reserved | global | domain | pageOrDevice
  deriving DecidableEq, Repr

namespace Granularity

def bits : Granularity → U8
  | reserved => 0#8
  | global => 1#8
  | domain => 2#8
  | pageOrDevice => 3#8

def fromBits (v : U8) : Granularity :=
  match v &&& 0x3#8 with
  | 1#8 => global
  | 2#8 => domain
  | 3#8 => pageOrDevice
  | _ => reserved

end Granularity

structure QiType where
  value : U8
  deriving DecidableEq, Repr

namespace QiType

@[match_pattern] def contextCache : QiType := ⟨0x1#8⟩
@[match_pattern] def iotlb : QiType := ⟨0x2#8⟩
@[match_pattern] def deviceTlb : QiType := ⟨0x3#8⟩
@[match_pattern] def interruptEntryCache : QiType := ⟨0x4#8⟩
@[match_pattern] def wait : QiType := ⟨0x5#8⟩
@[match_pattern] def pasidIotlb : QiType := ⟨0x6#8⟩
@[match_pattern] def pasidCache : QiType := ⟨0x7#8⟩
@[match_pattern] def pasidDeviceTlb : QiType := ⟨0x8#8⟩
@[match_pattern] def pageGroupResponse : QiType := ⟨0x9#8⟩

def fromWord0 (w : U64) : QiType := ⟨((extractBits w 11 9 <<< 4) ||| extractBits w 3 0).setWidth 8⟩

end QiType

/-- The two halves of a type at bits 11:9 and 3:0. -/
def typeBits (t : U8) : U64 :=
  let t := (t &&& 0x7f#8).setWidth 64
  ((t >>> 4) <<< 9) ||| (t &&& 0xf#64)

/-! ### Descriptors -/

structure QiCc where
  granularity : Granularity
  did : U16
  sid : U16
  fm : U8
  deriving DecidableEq, Repr

namespace QiCc

def new (granularity : Granularity) (did sid : U16) (fm : U8) : QiCc := ⟨granularity, did, sid, fm⟩

def fromWords (w0 _w1 : U64) : QiCc where
  granularity := .fromBits ((extractBits w0 5 4).setWidth 8)
  did := (extractBits w0 31 16).setWidth 16
  sid := (extractBits w0 47 32).setWidth 16
  fm := (extractBits w0 49 48).setWidth 8

def toWords (d : QiCc) : Words :=
  let w0 := typeBits QiType.contextCache.value ||| (d.granularity.bits.setWidth 64 <<< 4) |||
    (d.did.setWidth 64 <<< 16) ||| (d.sid.setWidth 64 <<< 32) ||| ((d.fm &&& 0x3#8).setWidth 64 <<< 48)
  ⟨w0, 0#64⟩

end QiCc

structure QiIotlb where
  granularity : Granularity
  did : U16
  addr : U64
  am : U8
  deriving DecidableEq, Repr

namespace QiIotlb

def new (granularity : Granularity) (did : U16) (addr : U64) (am : U8) : QiIotlb := ⟨granularity, did, addr, am⟩

def fromWords (w0 w1 : U64) : QiIotlb where
  granularity := .fromBits ((extractBits w0 5 4).setWidth 8)
  did := (extractBits w0 31 16).setWidth 16
  addr := w1 &&& ~~~0xfff#64
  am := (extractBits w1 5 0).setWidth 8

def toWords (d : QiIotlb) : Words :=
  let w0 := typeBits QiType.iotlb.value ||| (d.granularity.bits.setWidth 64 <<< 4) |||
    (d.did.setWidth 64 <<< 16)
  let w1 := (d.addr &&& ~~~0xfff#64) ||| (d.am &&& 0x3f#8).setWidth 64
  ⟨w0, w1⟩

end QiIotlb

structure QiDevTlb where
  sid : U16
  addr : U64
  oversized : Bool
  deriving DecidableEq, Repr

namespace QiDevTlb

def fromWords (w0 w1 : U64) : QiDevTlb where
  sid := (extractBits w0 47 32).setWidth 16
  addr := w1 &&& ~~~0xfff#64
  oversized := w1 &&& 1#64 != 0#64

def toWords (d : QiDevTlb) : Words :=
  let w0 := typeBits QiType.deviceTlb.value ||| (d.sid.setWidth 64 <<< 32)
  let w1 := (d.addr &&& ~~~0xfff#64) ||| (boolAs 8 d.oversized).setWidth 64
  ⟨w0, w1⟩

end QiDevTlb

structure QiIec where
  global : Bool
  startIndex : U16
  indexMask : U8
  deriving DecidableEq, Repr

namespace QiIec

def fromWords (w0 _w1 : U64) : QiIec where
  global := extractBits w0 4 4 != 0#64
  startIndex := (extractBits w0 47 32).setWidth 16
  indexMask := (extractBits w0 31 27).setWidth 8

def toWords (d : QiIec) : Words :=
  let w0 := typeBits QiType.interruptEntryCache.value ||| ((boolAs 8 d.global).setWidth 64 <<< 4) |||
    ((d.indexMask &&& 0x1f#8).setWidth 64 <<< 27) ||| (d.startIndex.setWidth 64 <<< 32)
  ⟨w0, 0#64⟩

end QiIec

structure QiWait where
  interruptFlag : Bool
  statusWrite : Bool
  fence : Bool
  statusData : U32
  statusAddr : U64
  deriving DecidableEq, Repr

namespace QiWait

/-- `QiWait::status_write`, beside the field of that name. -/
def newStatusWrite (statusAddr : U64) (statusData : U32) : QiWait :=
  ⟨false, true, false, statusData, statusAddr &&& ~~~0x7#64⟩

def newFence : QiWait := ⟨false, false, true, 0#32, 0#64⟩

def fromWords (w0 w1 : U64) : QiWait where
  interruptFlag := extractBits w0 4 4 != 0#64
  statusWrite := extractBits w0 5 5 != 0#64
  fence := extractBits w0 6 6 != 0#64
  statusData := (extractBits w0 63 32).setWidth 32
  statusAddr := w1 &&& ~~~0x7#64

def toWords (d : QiWait) : Words :=
  let w0 := typeBits QiType.wait.value ||| ((boolAs 8 d.interruptFlag).setWidth 64 <<< 4) |||
    ((boolAs 8 d.statusWrite).setWidth 64 <<< 5) ||| ((boolAs 8 d.fence).setWidth 64 <<< 6) |||
    (d.statusData.setWidth 64 <<< 32)
  ⟨w0, d.statusAddr &&& ~~~0x7#64⟩

end QiWait

structure QiPc where
  granularity : Granularity
  did : U16
  pasid : U32
  deriving DecidableEq, Repr

namespace QiPc

def fromWords (w0 _w1 : U64) : QiPc where
  granularity := .fromBits ((extractBits w0 5 4).setWidth 8)
  did := (extractBits w0 31 16).setWidth 16
  pasid := (extractBits w0 63 32).setWidth 32

def toWords (d : QiPc) : Words :=
  let w0 := typeBits QiType.pasidCache.value ||| (d.granularity.bits.setWidth 64 <<< 4) |||
    (d.did.setWidth 64 <<< 16) ||| (d.pasid.setWidth 64 <<< 32)
  ⟨w0, 0#64⟩

end QiPc

structure QiPiotlb where
  granularity : Granularity
  did : U16
  pasid : U32
  addr : U64
  am : U8
  deriving DecidableEq, Repr

namespace QiPiotlb

def fromWords (w0 w1 : U64) : QiPiotlb where
  granularity := .fromBits ((extractBits w0 5 4).setWidth 8)
  did := (extractBits w0 31 16).setWidth 16
  pasid := (extractBits w0 63 32).setWidth 32
  addr := w1 &&& ~~~0xfff#64
  am := (extractBits w1 5 0).setWidth 8

def toWords (d : QiPiotlb) : Words :=
  let w0 := typeBits QiType.pasidIotlb.value ||| (d.granularity.bits.setWidth 64 <<< 4) |||
    (d.did.setWidth 64 <<< 16) ||| (d.pasid.setWidth 64 <<< 32)
  let w1 := (d.addr &&& ~~~0xfff#64) ||| (d.am &&& 0x3f#8).setWidth 64
  ⟨w0, w1⟩

end QiPiotlb

structure QiDevPiotlb where
  global : Bool
  pasid : U32
  addr : U64
  sizeOrder : Bool
  sid : U16
  pfsid : U16
  deriving DecidableEq, Repr

/-- The granularity flag goes to bit 0 of word 0. -/
def QiDevPiotlb.toWords4 (d : QiDevPiotlb) : Words4 :=
  let w0 := typeBits QiType.pasidDeviceTlb.value ||| (boolAs 8 d.global).setWidth 64 |||
    (d.pasid.setWidth 64 <<< 32)
  let w1 := (d.addr &&& ~~~0xfff#64) ||| ((boolAs 8 d.sizeOrder).setWidth 64 <<< 11)
  let w2 := (d.sid.setWidth 64 <<< 32) ||| (d.pfsid.setWidth 64 <<< 16)
  ⟨w0, w1, w2, 0#64⟩

/-! ### One descriptor of any shape -/

inductive QiDesc where
  | contextCache (d : QiCc)
  | iotlb (d : QiIotlb)
  | devTlb (d : QiDevTlb)
  | iec (d : QiIec)
  | wait (d : QiWait)
  | pasidCache (d : QiPc)
  | pasidIotlb (d : QiPiotlb)
  | pasidDevTlb (d : QiDevPiotlb)
  deriving DecidableEq, Repr

namespace QiDesc

def ty : QiDesc → QiType
  | contextCache _ => .contextCache
  | iotlb _ => .iotlb
  | devTlb _ => .deviceTlb
  | iec _ => .interruptEntryCache
  | wait _ => .wait
  | pasidCache _ => .pasidCache
  | pasidIotlb _ => .pasidIotlb
  | pasidDevTlb _ => .pasidDeviceTlb

def words : QiDesc → Words
  | contextCache d => d.toWords
  | iotlb d => d.toWords
  | devTlb d => d.toWords
  | iec d => d.toWords
  | wait d => d.toWords
  | pasidCache d => d.toWords
  | pasidIotlb d => d.toWords
  | pasidDevTlb _ => ⟨0#64, 0#64⟩

def words4 : QiDesc → Words4
  | pasidDevTlb d => d.toWords4
  | other => ⟨other.words.w0, other.words.w1, 0#64, 0#64⟩

def fromWords (w0 w1 : U64) : Option QiDesc :=
  match QiType.fromWord0 w0 with
  | .contextCache => some (contextCache (.fromWords w0 w1))
  | .iotlb => some (iotlb (.fromWords w0 w1))
  | .deviceTlb => some (devTlb (.fromWords w0 w1))
  | .interruptEntryCache => some (iec (.fromWords w0 w1))
  | .wait => some (wait (.fromWords w0 w1))
  | .pasidCache => some (pasidCache (.fromWords w0 w1))
  | .pasidIotlb => some (pasidIotlb (.fromWords w0 w1))
  | _ => none

/-- How many 128-bit slots a descriptor takes. -/
def slotCount : QiDesc → Nat
  | pasidDevTlb _ => 2
  | _ => 1

end QiDesc

end Iommu.Intel.Qi
