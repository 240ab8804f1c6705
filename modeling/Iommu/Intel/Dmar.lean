import Iommu.Acpi

/-! The ACPI DMAR table (`intel-iommu/src/dmar.rs`).

A table is accepted by its signature, its length and its checksum. Its structures,
and the device scopes of a structure, are two iterators over length-prefixed
frames: `structFraming` has a 16-bit length in a header of four bytes,
`scopeFraming` a length byte in a header of six. -/
namespace Iommu.Intel.Dmar
open Lib Acpi

inductive DmarError where
  | tooShort (len : Nat)
  | badSignature (sig : List U8)
  | badLength (claimed available : Nat)
  | badChecksum
  deriving DecidableEq, Repr

/-- `STRUCTS_OFFSET`. -/
def structsOffset : Nat := 48

/-- `b"DMAR"`. -/
def dmarSignature : List U8 := [0x44#8, 0x4d#8, 0x41#8, 0x52#8]

structure DmarTable where
  raw : List U8
  deriving DecidableEq, Repr

/-- The errors and the offset of a DMAR table. -/
def kind : TableKind DmarError DmarTable where
  offset := structsOffset
  signature := dmarSignature
  tooShort := .tooShort
  badSignature := .badSignature
  badLength := .badLength
  badChecksum := .badChecksum
  view := .mk
  header_le := by decide

/-- `DmarTable::new`. -/
def DmarTable.new (raw : List U8) : Exec (Except DmarError DmarTable) := kind.accept raw

/-! ### The header -/

def DmarTable.signature (t : DmarTable) : Exec (List U8) := do
  let bytes ← Exec.slice t.raw 0 4
  Exec.tryInto 4 bytes

def DmarTable.revision (t : DmarTable) : Exec U8 := Exec.index t.raw 8

def DmarTable.oemId (t : DmarTable) : Exec (List U8) := do
  let bytes ← Exec.slice t.raw 10 16
  Exec.tryInto 6 bytes

/-- The sum is made in eight bits. -/
def DmarTable.hostAddressWidth (t : DmarTable) : Exec U8 := do
  let value ← Exec.index t.raw 36
  Exec.add value 1#8

def DmarTable.flagsRaw (t : DmarTable) : Exec U8 := Exec.index t.raw 37

def DmarTable.intrRemapRequired (t : DmarTable) : Exec Bool := do
  let flags ← t.flagsRaw
  return flags &&& 0b1#8 != 0#8

def DmarTable.x2apicOptOut (t : DmarTable) : Exec Bool := do
  let flags ← t.flagsRaw
  return flags &&& 0b10#8 != 0#8

/-! ### Reading a field, with a default -/

/-- `raw.get(off).copied().unwrap_or(0)`. -/
def byteOrZero (raw : List U8) (off : Nat) : U8 := raw[off]?.getD 0#8

def le16 (raw : List U8) (off : Nat) : Exec U16 :=
  match getRange raw off (off + 2) with
  | some b => do
    let lo ← Exec.index b 0
    let hi ← Exec.index b 1
    return u16FromLe lo hi
  | none => return 0#16

def le32 (raw : List U8) (off : Nat) : Exec U32 :=
  match getRange raw off (off + 4) with
  | some b => u32FromLe b
  | none => return 0#32

def le64 (raw : List U8) (off : Nat) : Exec U64 :=
  match getRange raw off (off + 8) with
  | some b => u64FromLe b
  | none => return 0#64

/-! ### Device scopes -/

inductive ScopeType where
  | pciEndpoint | pciSubhierarchy | ioapic | msiCapableHpet | acpiNamespaceDevice
  | reserved (v : U8)
  deriving DecidableEq, Repr

/-- `ScopeType::from`. -/
def ScopeType.fromByte (v : U8) : ScopeType :=
  match v with
  | 0x01#8 => pciEndpoint
  | 0x02#8 => pciSubhierarchy
  | 0x03#8 => ioapic
  | 0x04#8 => msiCapableHpet
  | 0x05#8 => acpiNamespaceDevice
  | other => reserved other

structure DeviceScope where
  ty : ScopeType
  bus : U8
  enumerationId : U8
  flags : U16
  path : List U8
  deriving DecidableEq, Repr

structure DeviceScopeIter where
  bytes : List U8
  deriving DecidableEq, Repr

/-- The entry that `DeviceScopeIter::next` makes of the bytes it splits off. -/
def DeviceScope.read (ty : U8) (raw : List U8) : Exec DeviceScope := do
  let enumerationId ← Exec.index raw 4
  let bus ← Exec.index raw 5
  let lo ← Exec.index raw 2
  let hi ← Exec.index raw 3
  let path ← Exec.sliceFrom raw 6
  return { ty := .fromByte ty, enumerationId, bus, flags := u16FromLe lo hi, path }

def DeviceScopeIter.next (it : DeviceScopeIter) : Exec (Option DeviceScope × DeviceScopeIter) :=
  if it.bytes.length < 6 then return (none, it)
  else do
    let ty ← Exec.index it.bytes 0
    let lenByte ← Exec.index it.bytes 1
    let len := lenByte.toNat
    if len < 6 ∨ len > it.bytes.length then return (none, it)
    else do
      let (raw, rest) ← Exec.splitAt it.bytes len
      let scope ← DeviceScope.read ty raw
      return (some scope, ⟨rest⟩)

/-- `path.chunks_exact(2)`: a last odd byte is left out. -/
def chunksExact2 : List U8 → List (List U8)
  | a :: b :: rest => [a, b] :: chunksExact2 rest
  | _ => []

/-- What `first_source_id` makes of the first pair of the path. -/
def DeviceScope.firstSourceId (s : DeviceScope) : Exec (Option U16) :=
  match (chunksExact2 s.path).head? with
  | none => return none
  | some pair => do
    let device ← Exec.index pair 0
    let function ← Exec.index pair 1
    return some (s.bus.setWidth 16 <<< 8 ||| device.setWidth 16 <<< 3 |||
      (function &&& 0x07#8).setWidth 16)

/-- All that `path_pairs` yields. -/
def DeviceScope.pathPairs (s : DeviceScope) : Exec (List (U8 × U8)) :=
  (chunksExact2 s.path).mapM' fun pair => do
    let device ← Exec.index pair 0
    let function ← Exec.index pair 1
    return (device, function)

/-- `raw.get(fixed..).unwrap_or(&[])`, the bytes after the fixed part of a structure. -/
def scopesAfter (fixed : Nat) (raw : List U8) : DeviceScopeIter :=
  ⟨if fixed ≤ raw.length then raw.drop fixed else []⟩

/-! ### Structures -/

structure Drhd where
  raw : List U8
  deriving DecidableEq, Repr

structure Rmrr where
  raw : List U8
  deriving DecidableEq, Repr

structure Atsr where
  raw : List U8
  deriving DecidableEq, Repr

structure Rhsa where
  raw : List U8
  deriving DecidableEq, Repr

structure Andd where
  raw : List U8
  deriving DecidableEq, Repr

structure Satc where
  raw : List U8
  deriving DecidableEq, Repr

structure Sidp where
  raw : List U8
  deriving DecidableEq, Repr

def Drhd.includePciAll (s : Drhd) : Bool := byteOrZero s.raw 4 &&& 1#8 != 0#8

def Drhd.registerSizeOrder (s : Drhd) : U8 := byteOrZero s.raw 5 &&& 0x0f#8

def Drhd.segment (s : Drhd) : Exec U16 := le16 s.raw 6

def Drhd.registerBase (s : Drhd) : Exec U64 := le64 s.raw 8

/-- The order is widened before it is added to. -/
def Drhd.registerSize (s : Drhd) : Exec U64 := do
  let order ← Exec.add 12#32 (s.registerSizeOrder.setWidth 32)
  Exec.shl 1#64 order.toNat

def Rmrr.segment (s : Rmrr) : Exec U16 := le16 s.raw 6

def Rmrr.base (s : Rmrr) : Exec U64 := le64 s.raw 8

def Rmrr.limit (s : Rmrr) : Exec U64 := le64 s.raw 16

def Atsr.allPorts (s : Atsr) : Bool := byteOrZero s.raw 4 &&& 1#8 != 0#8

def Atsr.segment (s : Atsr) : Exec U16 := le16 s.raw 6

def Satc.atcRequired (s : Satc) : Bool := byteOrZero s.raw 4 &&& 1#8 != 0#8

def Satc.segment (s : Satc) : Exec U16 := le16 s.raw 6

def Sidp.segment (s : Sidp) : Exec U16 := le16 s.raw 6

def Rhsa.segment (s : Rhsa) : Exec U32 := le32 s.raw 8

def Rhsa.base (s : Rhsa) : Exec U64 := le64 s.raw 12

def Rhsa.proximityDomain (s : Rhsa) : Exec U32 := le32 s.raw 20

def Andd.acpiDeviceNumber (s : Andd) : U8 := byteOrZero s.raw 7

def Andd.segment (s : Andd) : Exec U16 := le16 s.raw 8

/-- The name ends before its first NUL, or with the structure. -/
def Andd.objectName (s : Andd) : Exec (List U8) :=
  let body := if 10 ≤ s.raw.length then s.raw.drop 10 else []
  let stop := (body.findIdx? (· == 0#8)).getD body.length
  Exec.slice body 0 stop

/-! ### Scope lists of structures -/

def Drhd.scopes (s : Drhd) : DeviceScopeIter := scopesAfter 16 s.raw

def Rmrr.scopes (s : Rmrr) : DeviceScopeIter := scopesAfter 24 s.raw

def Atsr.scopes (s : Atsr) : DeviceScopeIter := scopesAfter 8 s.raw

def Satc.scopes (s : Satc) : DeviceScopeIter := scopesAfter 8 s.raw

def Sidp.scopes (s : Sidp) : DeviceScopeIter := scopesAfter 8 s.raw

inductive RemapStruct where
  | drhd (s : Drhd)
  | rmrr (s : Rmrr)
  | atsr (s : Atsr)
  | rhsa (s : Rhsa)
  | andd (s : Andd)
  | satc (s : Satc)
  | sidp (s : Sidp)
  | unknown (ty : U8) (raw : List U8)
  deriving DecidableEq, Repr

/-- The variant that `StructIter::next` makes of a type byte and the bytes it splits off. -/
def RemapStruct.ofType (ty : U8) (raw : List U8) : RemapStruct :=
  match ty with
  | 0#8 => drhd ⟨raw⟩
  | 1#8 => rmrr ⟨raw⟩
  | 2#8 => atsr ⟨raw⟩
  | 3#8 => rhsa ⟨raw⟩
  | 4#8 => andd ⟨raw⟩
  | 5#8 => satc ⟨raw⟩
  | 6#8 => sidp ⟨raw⟩
  | _ => unknown ty raw

def RemapStruct.raw : RemapStruct → List U8
  | drhd s => s.raw
  | rmrr s => s.raw
  | atsr s => s.raw
  | rhsa s => s.raw
  | andd s => s.raw
  | satc s => s.raw
  | sidp s => s.raw
  | unknown _ raw => raw

structure StructIter where
  bytes : List U8
  deriving DecidableEq, Repr

/-- `peek_len`. -/
def peekLen (bytes : List U8) : Exec (Option Nat) :=
  if bytes.length < 4 then return none
  else do
    let lo ← Exec.index bytes 2
    let hi ← Exec.index bytes 3
    return some (u16FromLe lo hi).toNat

def StructIter.next (it : StructIter) : Exec (Option RemapStruct × StructIter) :=
  match it.bytes.head? with
  | none => return (none, it)
  | some ty => do
    match ← peekLen it.bytes with
    | none => return (none, it)
    | some len =>
      if len < 4 ∨ len > it.bytes.length then return (none, it)
      else do
        let (raw, rest) ← Exec.splitAt it.bytes len
        return (some (.ofType ty raw), ⟨rest⟩)

/-- `structs`. -/
def DmarTable.structs (t : DmarTable) : Exec StructIter := do
  let bytes ← Exec.sliceFrom t.raw structsOffset
  return ⟨bytes⟩

end Iommu.Intel.Dmar
