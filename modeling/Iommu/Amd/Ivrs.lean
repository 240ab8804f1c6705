import Iommu.Acpi

/-! The ACPI IVRS table (`amd-iommu/src/ivrs.rs`).

A table is accepted like a DMAR table, with its own signature and offset. Its blocks
are length-prefixed frames of at least four bytes, and the device entries of a
hardware definition are frames whose length the first byte decides. An accessor
reads with `get`, which has a default, or with an index, which has none. -/
namespace Iommu.Amd.Ivrs
open Lib Acpi

inductive IvrsError where
  | tooShort (len : Nat)
  | badSignature (sig : List U8)
  | badLength (claimed available : Nat)
  | badChecksum
  deriving DecidableEq, Repr

/-- `BLOCKS_OFFSET`. -/
def blocksOffset : Nat := 44

/-- `b"IVRS"`. -/
def ivrsSignature : List U8 := [0x49#8, 0x56#8, 0x52#8, 0x53#8]

structure IvrsTable where
  raw : List U8
  deriving DecidableEq, Repr

/-- The errors and the offset of an IVRS table. -/
def kind : TableKind IvrsError IvrsTable where
  offset := blocksOffset
  signature := ivrsSignature
  tooShort := .tooShort
  badSignature := .badSignature
  badLength := .badLength
  badChecksum := .badChecksum
  view := .mk
  header_le := by decide

/-- `IvrsTable::new`. -/
def IvrsTable.new (raw : List U8) : Exec (Except IvrsError IvrsTable) := kind.accept raw

def IvrsTable.revision (t : IvrsTable) : Exec U8 := Exec.index t.raw 8

def IvrsTable.checksum (t : IvrsTable) : Exec U8 := Exec.index t.raw 9

/-! ### Device entries -/

inductive DeviceType where
  | all | select | aliasSelect | special | acpiHid
  | reserved (v : U8)
  deriving DecidableEq, Repr

/-- `DeviceType::from`. -/
def DeviceType.fromByte (v : U8) : DeviceType :=
  match v with
  | 0x01#8 => all
  | 0x02#8 => select
  | 0x03#8 => aliasSelect
  | 0x40#8 | 0x41#8 | 0x42#8 => special
  | 0x48#8 => acpiHid
  | other => reserved other

inductive DeviceEntry where
  | short (ty : DeviceType) (data data2 : U8)
  | long (ty : DeviceType) (bus devfn : U8) (sourceId : U16)
  | variableLen (ty : DeviceType) (raw : List U8)
  deriving DecidableEq, Repr

structure DeviceEntryIter where
  bytes : List U8
  deriving DecidableEq, Repr

/-- The types whose entries give their own length, in byte 1. -/
def variableType (first : U8) : Bool :=
  first == 0x40#8 || first == 0x41#8 || first == 0x42#8 || first == 0x48#8

/-- The length of an entry of any other type. -/
def needed (first : U8) : Nat :=
  if first = 0x01#8 ∨ first = 0x02#8 then 4
  else if first = 0x03#8 ∨ (0x28#8 ≤ first ∧ first ≤ 0x2f#8) then 8
  else 4

/-- The entry that `DeviceEntryIter::next` makes of bytes of the length that is needed. -/
def DeviceEntry.readFixed (first : U8) (raw : List U8) : Exec DeviceEntry :=
  match needed first with
  | 4 => do
    let data ← Exec.index raw 2
    let data2 ← Exec.index raw 3
    return .short (.fromByte first) data data2
  | _ => do
    let bus ← Exec.index raw 2
    let devfn ← Exec.index raw 3
    let lo ← Exec.index raw 6
    let hi ← Exec.index raw 7
    return .long (.fromByte first) bus devfn (u16FromLe lo hi)

def DeviceEntryIter.next (it : DeviceEntryIter) : Exec (Option DeviceEntry × DeviceEntryIter) :=
  match it.bytes.head? with
  | none => return (none, it)
  | some first =>
    if variableType first then
      match it.bytes[1]? with
      | none => return (none, it)
      | some lenByte =>
        let len := lenByte.toNat
        if len < 4 ∨ len > it.bytes.length then return (none, it)
        else do
          let (raw, rest) ← Exec.splitAt it.bytes len
          return (some (.variableLen (.fromByte first) raw), ⟨rest⟩)
    else if it.bytes.length < needed first then return (none, it)
    else do
      let (raw, rest) ← Exec.splitAt it.bytes (needed first)
      let entry ← DeviceEntry.readFixed first raw
      return (some entry, ⟨rest⟩)

/-! ### Blocks -/

inductive EntryType where
  | ivhdType10 | ivhdType11 | ivhdType40 | ivmd
  | reserved (v : U8)
  deriving DecidableEq, Repr

/-- `EntryType::from`. -/
def EntryType.fromByte (v : U8) : EntryType :=
  match v with
  | 0x10#8 => ivhdType10
  | 0x11#8 => ivhdType11
  | 0x20#8 => ivmd
  | 0x40#8 => ivhdType40
  | other => reserved other

structure Ivhd where
  raw : List U8
  deriving DecidableEq, Repr

structure Ivmd where
  raw : List U8
  deriving DecidableEq, Repr

inductive Block where
  | ivhd (b : Ivhd)
  | ivmd (b : Ivmd)
  | unknown (ty : U8) (raw : List U8)
  deriving DecidableEq, Repr

/-- The variant that `BlockIter::next` makes of a type byte and the bytes it splits off. -/
def Block.ofType (ty : U8) (raw : List U8) : Block :=
  match EntryType.fromByte ty with
  | .ivhdType10 | .ivhdType11 | .ivhdType40 => ivhd ⟨raw⟩
  | .ivmd => ivmd ⟨raw⟩
  | .reserved _ => unknown ty raw

def Block.raw : Block → List U8
  | ivhd b => b.raw
  | ivmd b => b.raw
  | unknown _ raw => raw

structure BlockIter where
  bytes : List U8
  deriving DecidableEq, Repr

def BlockIter.next (it : BlockIter) : Exec (Option Block × BlockIter) :=
  if it.bytes.length < 4 then return (none, it)
  else do
    let ty ← Exec.index it.bytes 0
    let lo ← Exec.index it.bytes 2
    let hi ← Exec.index it.bytes 3
    let len := (u16FromLe lo hi).toNat
    if len < 4 ∨ len > it.bytes.length then return (none, it)
    else do
      let (raw, rest) ← Exec.splitAt it.bytes len
      return (some (.ofType ty raw), ⟨rest⟩)

/-- `blocks`. -/
def IvrsTable.blocks (t : IvrsTable) : Exec BlockIter := do
  let bytes ← Exec.sliceFrom t.raw blocksOffset
  return ⟨bytes⟩

/-! ### Hardware definitions -/

def Ivhd.entryType (b : Ivhd) : Exec EntryType := do
  let ty ← Exec.index b.raw 0
  return .fromByte ty

def Ivhd.flags (b : Ivhd) : Exec U8 := Exec.index b.raw 1

def Ivhd.iommuId (b : Ivhd) : Exec U8 := Exec.index b.raw 4

def Ivhd.segment (b : Ivhd) : Exec U16 := do
  let lo ← Exec.index b.raw 5
  let hi ← Exec.index b.raw 6
  return u16FromLe lo hi

def Ivhd.baseAddress (b : Ivhd) : Exec U64 :=
  match getRange b.raw 7 15 with
  | some bytes => u64FromLe bytes
  | none => return 0#64

def Ivhd.deviceRange (b : Ivhd) : Option (U16 × U16) := do
  let off := 15
  let lo ← b.raw[off]?
  let hi ← b.raw[off + 1]?
  return (lo.setWidth 16, hi.setWidth 16)

/-- `self.raw.get(off..off + 4)`, as a dword when it is there. -/
def Ivhd.dwordAt (b : Ivhd) (off : Nat) : Exec (Option U32) :=
  match getRange b.raw off (off + 4) with
  | none => return none
  | some bytes => do
    let value ← u32FromLe bytes
    return some value

def Ivhd.capability (b : Ivhd) : Exec (Option U32) := b.dwordAt 17

def Ivhd.extendedFeatures (b : Ivhd) : Exec (Option U32) := do
  match ← b.entryType with
  | .ivhdType11 => b.dwordAt 21
  | .ivhdType40 => b.dwordAt 21
  | _ => return none

/-- `devices`: the entries after a header whose size is decided by the type. -/
def Ivhd.devices (b : Ivhd) : Exec DeviceEntryIter := do
  let ty ← b.entryType
  let hdr := match ty with
    | .ivhdType10 => 24
    | _ => 28
  return ⟨if hdr ≤ b.raw.length then b.raw.drop hdr else []⟩

/-! ### Memory definitions -/

def Ivmd.flags (b : Ivmd) : Exec U8 := Exec.index b.raw 1

def Ivmd.segment (b : Ivmd) : Exec U16 := do
  let lo ← Exec.index b.raw 4
  let hi ← Exec.index b.raw 5
  return u16FromLe lo hi

/-- `self.raw.get(lo..hi).unwrap_or(&[0; 8])`, copied into an array and read. -/
def Ivmd.qwordAt (b : Ivmd) (lo hi : Nat) : Exec U64 := do
  let bytes := (getRange b.raw lo hi).getD (List.replicate 8 0#8)
  let a ← Exec.copyFromSlice 8 bytes
  u64FromLe a

def Ivmd.base (b : Ivmd) : Exec U64 := b.qwordAt 8 16

def Ivmd.length (b : Ivmd) : Exec U64 := b.qwordAt 16 24

end Iommu.Amd.Ivrs
