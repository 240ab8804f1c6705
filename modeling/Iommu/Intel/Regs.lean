import Iommu.Bits

/-! Register words of the remapping hardware (`intel-iommu/src/regs.rs`).

The words that a context-cache or an IOTLB invalidation is requested with, and the one
that holds the interrupt remapping table. Each is built by ORing its fields together and
read by extracting them. -/
namespace Iommu.Intel.Regs
open Lib

/-! ### Context commands -/

inductive Cirg where
  | reserved | global | domain | device
  deriving DecidableEq, Repr

structure Ccmd where
  value : U64
  deriving DecidableEq, Repr

namespace Ccmd

/-- The function mask is put on the low bits of the source id. -/
def new (granularity : Cirg) (did sid : U16) (fm : U8) : Ccmd :=
  let cirg : U64 := match granularity with
    | .reserved => 0#64
    | .global => 1#64
    | .domain => 2#64
    | .device => 3#64
  let v := (cirg <<< 4) ||| (did.setWidth 64 <<< 8) ||| (sid.setWidth 64 <<< 32)
  ⟨v ||| ((fm &&& 0x3#8).setWidth 64 <<< 32)⟩

def initiate (c : Ccmd) : Bool := extractBits c.value 63 63 != 0#64

def granularity (c : Ccmd) : Cirg :=
  match extractBits c.value 5 4 with
  | 1#64 => .global
  | 2#64 => .domain
  | 3#64 => .device
  | _ => .reserved

/-- Twenty-four bits, cast to sixteen. -/
def did (c : Ccmd) : U16 := (extractBits c.value 31 8).setWidth 16

def sid (c : Ccmd) : U16 := (extractBits c.value 47 32).setWidth 16

def fm (c : Ccmd) : U8 := (extractBits c.value 33 32).setWidth 8

end Ccmd

/-! ### The invalidation queue -/

/-- A slot of a queue is sixteen bytes, as a shift. -/
def queueEntryShift : Nat := 4

structure Iqa where
  value : U64
  deriving DecidableEq, Repr

namespace Iqa

def new (base : U64) (wide : Bool) : Iqa := ⟨(base &&& ~~~0xfff#64) ||| (boolAs 64 wide <<< 4)⟩

def base (q : Iqa) : U64 := extractBits q.value 63 12 <<< 12

def wideDescriptors (q : Iqa) : Bool := extractBits q.value 4 4 != 0#64

end Iqa

/-! ### The interrupt remapping table -/

structure Irta where
  value : U64
  deriving DecidableEq, Repr

namespace Irta

/-- The size is put on bits 15:14, which the base has too. -/
def new (base : U64) (sizeOrder : U8) (x2apic : Bool) : Irta :=
  ⟨(base &&& ~~~0xfff#64) ||| ((sizeOrder &&& 0x3#8).setWidth 64 <<< 14) ||| (boolAs 64 x2apic <<< 11)⟩

def base (i : Irta) : U64 := extractBits i.value 63 12 <<< 12

def sizeOrder (i : Irta) : U8 := (extractBits i.value 15 14).setWidth 8

def eime (i : Irta) : Bool := extractBits i.value 11 11 != 0#64

end Irta

/-! ### IOTLB invalidation -/

inductive Iirg where
  | reserved | global | domain | page
  deriving DecidableEq, Repr

structure IotlbInval where
  value : U64
  deriving DecidableEq, Repr

namespace IotlbInval

def new (granularity : Iirg) (did : U16) (drainReads drainWrites : Bool) : IotlbInval :=
  let iirg : U64 := match granularity with
    | .reserved => 0#64
    | .global => 1#64
    | .domain => 2#64
    | .page => 3#64
  let v := iirg <<< 60
  let v := if drainReads then v ||| (1#64 <<< 49) else v
  let v := if drainWrites then v ||| (1#64 <<< 48) else v
  ⟨v ||| (did.setWidth 64 <<< 32)⟩

def initiate (i : IotlbInval) : Bool := extractBits i.value 63 63 != 0#64

def granularity (i : IotlbInval) : Iirg :=
  match extractBits i.value 61 60 with
  | 1#64 => .global
  | 2#64 => .domain
  | 3#64 => .page
  | _ => .reserved

def did (i : IotlbInval) : U16 := (extractBits i.value 47 32).setWidth 16

end IotlbInval

structure Iva where
  value : U64
  deriving DecidableEq, Repr

namespace Iva

def new (addr : U64) (am : U8) : Iva := ⟨(addr &&& ~~~0xfff#64) ||| (am &&& 0x3f#8).setWidth 64⟩

def addr (i : Iva) : U64 := extractBits i.value 63 12 <<< 12

def am (i : Iva) : U8 := (extractBits i.value 5 0).setWidth 8

end Iva
end Iommu.Intel.Regs
