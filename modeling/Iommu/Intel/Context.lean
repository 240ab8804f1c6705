import Iommu.Bytes

/-! Context and PASID table entries (`intel-iommu/src/context.rs`).

The three entries that the driver builds: a legacy context entry of two qwords, a
scalable one of four and a PASID table entry of eight. Each is written to memory by
copying its qwords into a zeroed buffer. Root and PASID directory entries are a pointer
with a present bit. -/
namespace Iommu.Intel.Context
open Lib

/-! ### Codes -/

inductive AddrWidth where
  | reserved0 | agaw39 | agaw48 | agaw57
  | reserved (v : U8)
  deriving DecidableEq, Repr

namespace AddrWidth

def fromBits (v : U8) : AddrWidth :=
  match v &&& 0x7#8 with
  | 1#8 => agaw39
  | 2#8 => agaw48
  | 3#8 => agaw57
  | 0#8 => reserved0
  | other => reserved other

def bits : AddrWidth → U8
  | reserved0 => 0#8
  | agaw39 => 1#8
  | agaw48 => 2#8
  | agaw57 => 3#8
  | reserved v => v &&& 0x7#8

def addressBits : AddrWidth → Nat
  | agaw39 => 39
  | agaw48 => 48
  | agaw57 => 57
  | _ => 0

end AddrWidth

inductive TransType where
  | secondStage | reserved01 | passThrough | reserved11
  deriving DecidableEq, Repr

namespace TransType

def fromBits (v : U8) : TransType :=
  match v &&& 0x3#8 with
  | 0#8 => secondStage
  | 1#8 => reserved01
  | 2#8 => passThrough
  | _ => reserved11

def bits : TransType → U8
  | secondStage => 0#8
  | reserved01 => 1#8
  | passThrough => 2#8
  | reserved11 => 3#8

end TransType

inductive Pgtt where
  | reserved0 | firstStageOnly | secondStageOnly | nested | passThrough
  | reserved (v : U8)
  deriving DecidableEq, Repr

namespace Pgtt

def fromBits (v : U8) : Pgtt :=
  match v &&& 0x7#8 with
  | 1#8 => firstStageOnly
  | 2#8 => secondStageOnly
  | 3#8 => nested
  | 4#8 => passThrough
  | 0#8 => reserved0
  | other => reserved other

def bits : Pgtt → U8
  | reserved0 => 0#8
  | firstStageOnly => 1#8
  | secondStageOnly => 2#8
  | nested => 3#8
  | passThrough => 4#8
  | reserved v => v &&& 0x7#8

end Pgtt

inductive Flpm where
  | fourLevel | fiveLevel
  | reserved (v : U8)
  deriving DecidableEq, Repr

namespace Flpm

def fromBits (v : U8) : Flpm :=
  match v &&& 0x3#8 with
  | 0#8 => fourLevel
  | 1#8 => fiveLevel
  | other => reserved other

def bits : Flpm → U8
  | fourLevel => 0#8
  | fiveLevel => 1#8
  | reserved v => v &&& 0x3#8

end Flpm

/-! ### Root entries -/

/-- Of both modes: `ScalableRootEntry` is the same type. -/
structure RootEntry where
  low : U64
  high : U64
  deriving DecidableEq, Repr

namespace RootEntry

def new (contextTable : U64) : RootEntry := ⟨(contextTable &&& ~~~0xfff#64) ||| 1#64, 0#64⟩

def present (e : RootEntry) : Bool := e.low &&& 1#64 != 0#64

def contextTable (e : RootEntry) : U64 := e.low &&& ~~~0xfff#64

/-- The entry that its bytes hold. -/
def fromBytes (bytes : List U8) : Exec RootEntry := do
  let low ← readQword bytes 0
  let high ← readQword bytes 8
  return ⟨low, high⟩

end RootEntry

/-! ### Legacy context entries -/

structure ContextEntry where
  q0 : U64
  q1 : U64
  deriving DecidableEq, Repr

namespace ContextEntry

def new : ContextEntry := ⟨0#64, 0#64⟩

def withPresent (p : Bool) (e : ContextEntry) : ContextEntry :=
  { e with q0 := (e.q0 &&& ~~~1#64) ||| (boolAs 8 p).setWidth 64 }

def present (e : ContextEntry) : Bool := e.q0 &&& 1#64 != 0#64

def withFaultDisable (fpd : Bool) (e : ContextEntry) : ContextEntry :=
  { e with q0 := (e.q0 &&& ~~~2#64) ||| ((boolAs 8 fpd).setWidth 64 <<< 1) }

def faultDisable (e : ContextEntry) : Bool := e.q0 &&& 2#64 != 0#64

/-- The code is masked after it is shifted. -/
def withTranslationType (tt : TransType) (e : ContextEntry) : ContextEntry :=
  { e with q0 := (e.q0 &&& ~~~0xc#64) ||| ((tt.bits.setWidth 64 <<< 2) &&& 0xc#64) }

def translationType (e : ContextEntry) : TransType := .fromBits ((extractBits e.q0 3 2).setWidth 8)

def withSecondStagePtr (addr : U64) (e : ContextEntry) : ContextEntry :=
  { e with q0 := (e.q0 &&& 0xfff#64) ||| (addr &&& ~~~0xfff#64) }

def secondStagePtr (e : ContextEntry) : U64 := e.q0 &&& ~~~0xfff#64

def withAddressWidth (aw : AddrWidth) (e : ContextEntry) : ContextEntry :=
  { e with q1 := (e.q1 &&& ~~~0x7#64) ||| (aw.bits.setWidth 64 &&& 0x7#64) }

def addressWidth (e : ContextEntry) : AddrWidth := .fromBits ((extractBits e.q1 2 0).setWidth 8)

def withDomainId (did : U16) (e : ContextEntry) : ContextEntry :=
  { e with q1 := (e.q1 &&& ~~~(0xffff#64 <<< 8)) ||| (did.setWidth 64 <<< 8) }

def domainId (e : ContextEntry) : U16 := (extractBits e.q1 23 8).setWidth 16

def intoBytes (e : ContextEntry) : Exec (List U8) := do
  let out := List.replicate 16 0#8
  let out ← Exec.copyInto out 0 8 (u64ToLe e.q0)
  let out ← Exec.copyInto out 8 out.length (u64ToLe e.q1)
  return out

/-- The entry that its bytes hold. -/
def fromBytes (bytes : List U8) : Exec ContextEntry := do
  let q0 ← readQword bytes 0
  let q1 ← readQword bytes 8
  return ⟨q0, q1⟩

end ContextEntry

/-! ### Scalable context entries -/

structure ScalableContextEntry where
  q0 : U64
  q1 : U64
  reserved : Words
  deriving DecidableEq, Repr

namespace ScalableContextEntry

def new : ScalableContextEntry := ⟨0#64, 0#64, ⟨0#64, 0#64⟩⟩

def present (e : ScalableContextEntry) : Bool := e.q0 &&& 1#64 != 0#64

def withPresent (p : Bool) (e : ScalableContextEntry) : ScalableContextEntry :=
  { e with q0 := (e.q0 &&& ~~~1#64) ||| (boolAs 8 p).setWidth 64 }

def faultDisable (e : ScalableContextEntry) : Bool := e.q0 &&& 2#64 != 0#64

def deviceTlbEnable (e : ScalableContextEntry) : Bool := e.q0 &&& 4#64 != 0#64

def pasidEnable (e : ScalableContextEntry) : Bool := e.q0 &&& 8#64 != 0#64

def withPasidEnable (en : Bool) (e : ScalableContextEntry) : ScalableContextEntry :=
  { e with q0 := (e.q0 &&& ~~~(1#64 <<< 3)) ||| ((boolAs 8 en).setWidth 64 <<< 3) }

def pageRequestEnable (e : ScalableContextEntry) : Bool := e.q0 &&& 0x10#64 != 0#64

def withPageRequestEnable (en : Bool) (e : ScalableContextEntry) : ScalableContextEntry :=
  { e with q0 := (e.q0 &&& ~~~(1#64 <<< 4)) ||| ((boolAs 8 en).setWidth 64 <<< 4) }

def hptEnable (e : ScalableContextEntry) : Bool := e.q0 &&& 0x20#64 != 0#64

def eptrEnable (e : ScalableContextEntry) : Bool := e.q0 &&& 0x40#64 != 0#64

def pasidDirSize (e : ScalableContextEntry) : U8 := (extractBits e.q0 11 9).setWidth 8

def withPasidDirSize (order : U8) (e : ScalableContextEntry) : ScalableContextEntry :=
  { e with q0 := (e.q0 &&& ~~~(0x7#64 <<< 9)) ||| ((order &&& 0x7#8).setWidth 64 <<< 9) }

def withPasidDirPtr (addr : U64) (e : ScalableContextEntry) : ScalableContextEntry :=
  { e with q0 := (e.q0 &&& 0xfff#64) ||| (addr &&& ~~~0xfff#64) }

def pasidDirPtr (e : ScalableContextEntry) : U64 := e.q0 &&& ~~~0xfff#64

def ridPasid (e : ScalableContextEntry) : U32 := (extractBits e.q1 19 0).setWidth 32

def withRidPasid (pasid : U32) (e : ScalableContextEntry) : ScalableContextEntry :=
  { e with q1 := (e.q1 &&& ~~~0xfffff#64) ||| (pasid &&& 0xfffff#32).setWidth 64 }

def ridPriv (e : ScalableContextEntry) : Bool := e.q1 &&& (1#64 <<< 20) != 0#64

def withRidPriv (en : Bool) (e : ScalableContextEntry) : ScalableContextEntry :=
  { e with q1 := (e.q1 &&& ~~~(1#64 <<< 20)) ||| ((boolAs 8 en).setWidth 64 <<< 20) }

def intoBytes (e : ScalableContextEntry) : Exec (List U8) := do
  let out := List.replicate 32 0#8
  let out ← Exec.copyInto out 0 8 (u64ToLe e.q0)
  let out ← Exec.copyInto out 8 16 (u64ToLe e.q1)
  let out ← Exec.copyInto out 16 24 (u64ToLe e.reserved.w0)
  let out ← Exec.copyInto out 24 32 (u64ToLe e.reserved.w1)
  return out

/-- The entry that its bytes hold. -/
def fromBytes (bytes : List U8) : Exec ScalableContextEntry := do
  let q0 ← readQword bytes 0
  let q1 ← readQword bytes 8
  let r0 ← readQword bytes 16
  let r1 ← readQword bytes 24
  return ⟨q0, q1, ⟨r0, r1⟩⟩

end ScalableContextEntry

/-! ### PASID directory entries -/

structure PasidDirEntry where
  low : U64
  high : U64
  deriving DecidableEq, Repr

namespace PasidDirEntry

def new (pasidTable : U64) : PasidDirEntry := ⟨(pasidTable &&& ~~~0xfff#64) ||| 1#64, 0#64⟩

def present (e : PasidDirEntry) : Bool := e.low &&& 1#64 != 0#64

def faultDisable (e : PasidDirEntry) : Bool := e.low &&& 2#64 != 0#64

def pasidTablePtr (e : PasidDirEntry) : U64 := e.low &&& ~~~0xfff#64

/-- The entry that its bytes hold. -/
def fromBytes (bytes : List U8) : Exec PasidDirEntry := do
  let low ← readQword bytes 0
  let high ← readQword bytes 8
  return ⟨low, high⟩

end PasidDirEntry

/-! ### PASID table entries -/

structure PasidTableEntry where
  q0 : U64
  q1 : U64
  q2 : U64
  q3 : U64
  hpt : Words4
  deriving DecidableEq, Repr

namespace PasidTableEntry

def new : PasidTableEntry := ⟨0#64, 0#64, 0#64, 0#64, ⟨0#64, 0#64, 0#64, 0#64⟩⟩

def present (e : PasidTableEntry) : Bool := e.q0 &&& 1#64 != 0#64

def withPresent (p : Bool) (e : PasidTableEntry) : PasidTableEntry :=
  { e with q0 := (e.q0 &&& ~~~1#64) ||| (boolAs 8 p).setWidth 64 }

def faultDisable (e : PasidTableEntry) : Bool := e.q0 &&& 2#64 != 0#64

def ssAccessedDirty (e : PasidTableEntry) : Bool := e.q0 &&& (1#64 <<< 9) != 0#64

def withSsAccessedDirty (en : Bool) (e : PasidTableEntry) : PasidTableEntry :=
  { e with q0 := (e.q0 &&& ~~~(1#64 <<< 9)) ||| ((boolAs 8 en).setWidth 64 <<< 9) }

def pgtt (e : PasidTableEntry) : Pgtt := .fromBits ((extractBits e.q0 8 6).setWidth 8)

def withPgtt (pgtt : Pgtt) (e : PasidTableEntry) : PasidTableEntry :=
  { e with q0 := (e.q0 &&& ~~~(0x7#64 <<< 6)) ||| ((pgtt.bits &&& 0x7#8).setWidth 64 <<< 6) }

def pageTablePtr (e : PasidTableEntry) : U64 := e.q0 &&& ~~~0xfff#64

def withPageTablePtr (addr : U64) (e : PasidTableEntry) : PasidTableEntry :=
  { e with q0 := (e.q0 &&& 0xfff#64) ||| (addr &&& ~~~0xfff#64) }

def domainId (e : PasidTableEntry) : U16 := e.q1.setWidth 16

def withDomainId (did : U16) (e : PasidTableEntry) : PasidTableEntry :=
  { e with q1 := (e.q1 &&& ~~~0xffff#64) ||| did.setWidth 64 }

def pageSnoop (e : PasidTableEntry) : Bool := e.q1 &&& (1#64 <<< 24) != 0#64

def cacheDisable (e : PasidTableEntry) : Bool := e.q1 &&& (1#64 <<< 25) != 0#64

def supervisorRequests (e : PasidTableEntry) : Bool := e.q2 &&& 1#64 != 0#64

def withSupervisorRequests (en : Bool) (e : PasidTableEntry) : PasidTableEntry :=
  { e with q2 := (e.q2 &&& ~~~1#64) ||| (boolAs 8 en).setWidth 64 }

def flpm (e : PasidTableEntry) : Flpm := .fromBits ((extractBits e.q2 3 2).setWidth 8)

def withFlpm (flpm : Flpm) (e : PasidTableEntry) : PasidTableEntry :=
  { e with q2 := (e.q2 &&& ~~~(0x3#64 <<< 2)) ||| ((flpm.bits &&& 0x3#8).setWidth 64 <<< 2) }

def firstLevelPtr (e : PasidTableEntry) : U64 := e.q2 &&& 0x000ffffffffff000#64

def withFirstLevelPtr (addr : U64) (e : PasidTableEntry) : PasidTableEntry :=
  { e with q2 := (e.q2 &&& ~~~0x000ffffffffff000#64) ||| (addr &&& 0x000ffffffffff000#64) }

def writeProtectEnable (e : PasidTableEntry) : Bool := e.q2 &&& (1#64 <<< 4) != 0#64

def extAccessedFlag (e : PasidTableEntry) : Bool := e.q2 &&& (1#64 <<< 7) != 0#64

def hptSize (e : PasidTableEntry) : U8 := (extractBits e.hpt.w1 1 0).setWidth 8

def hptDomainId (e : PasidTableEntry) : U16 := e.hpt.w2.setWidth 16

def hptRootRaw (e : PasidTableEntry) : U64 × U64 := (e.hpt.w3, e.hpt.w2 &&& 0xfff#64)

def hptQwords (e : PasidTableEntry) : List U64 := [e.hpt.w0, e.hpt.w1, e.hpt.w2, e.hpt.w3]

def intoBytes (e : PasidTableEntry) : Exec (List U8) := do
  let out := List.replicate 64 0#8
  let out ← Exec.copyInto out 0 8 (u64ToLe e.q0)
  let out ← Exec.copyInto out 8 16 (u64ToLe e.q1)
  let out ← Exec.copyInto out 16 24 (u64ToLe e.q2)
  let out ← Exec.copyInto out 24 32 (u64ToLe e.q3)
  e.hptQwords.zipIdx.foldlM (fun out (q, i) => Exec.copyInto out (32 + i * 8) (40 + i * 8) (u64ToLe q)) out

/-- The entry that its bytes hold. -/
def fromBytes (bytes : List U8) : Exec PasidTableEntry := do
  let q0 ← readQword bytes 0
  let q1 ← readQword bytes 8
  let q2 ← readQword bytes 16
  let q3 ← readQword bytes 24
  let h0 ← readQword bytes 32
  let h1 ← readQword bytes 40
  let h2 ← readQword bytes 48
  let h3 ← readQword bytes 56
  return ⟨q0, q1, q2, q3, ⟨h0, h1, h2, h3⟩⟩

end PasidTableEntry

/-! ### Overlays

A reference to the record that bytes at an address are: `ref_from_bytes` is the reader of
the entry's type, given the address as well, for it looks at the alignment. -/

section Overlays
variable {Err : Type}

def rootEntry (refFromBytes : Nat → List U8 → Except Err RootEntry) (addr : Nat) (bytes : List U8) :
    Option RootEntry :=
  (refFromBytes addr bytes).toOption

def contextEntry (refFromBytes : Nat → List U8 → Except Err ContextEntry) (addr : Nat) (bytes : List U8) :
    Option ContextEntry :=
  (refFromBytes addr bytes).toOption

def scalableContextEntry (refFromBytes : Nat → List U8 → Except Err ScalableContextEntry) (addr : Nat)
    (bytes : List U8) : Option ScalableContextEntry :=
  (refFromBytes addr bytes).toOption

def pasidTableEntry (refFromBytes : Nat → List U8 → Except Err PasidTableEntry) (addr : Nat) (bytes : List U8) :
    Option PasidTableEntry :=
  (refFromBytes addr bytes).toOption

end Overlays

/-- `entries_per_page`, of a size that is not zero. -/
def entriesPerPage (entrySize : Nat) : Nat := 4096 / entrySize

end Iommu.Intel.Context
