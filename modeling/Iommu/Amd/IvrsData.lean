import Iommu.Amd.IvrsEntries
import Iommu.Integrity

/-! IVRS tables as the data that they hold.

To its reader a table is a list of hardware definitions, with the devices of each, and of
memory definitions. Written with the fields where the accessors read them, and sealed,
every such table is accepted, and the iterators and the accessors give back the data, on
every level (`ivrs_round_trip`). -/
namespace Iommu.Amd.Ivrs
open Lib Acpi

/-! ### Devices -/

/-- A device entry, of one of the three shapes that its type can have. -/
inductive Device where
  | short (ty data data2 : U8) (fixed : variableType ty = false) (size : needed ty = 4)
  | long (ty bus devfn : U8) (sourceId : U16) (size : needed ty = 8)
  | variableLen (ty : U8) (body : List U8) (varies : variableType ty = true) (least : 2 ≤ body.length)
    (fits : 2 + body.length < 2 ^ 8)

namespace Device

def bytes : Device → List U8
  | short ty data data2 _ _ => [ty, 0#8, data, data2]
  | long ty bus devfn sourceId _ => [ty, 0#8, bus, devfn, 0#8, 0#8] ++ u16ToLe sourceId
  | variableLen ty body _ _ _ => ty :: BitVec.ofNat 8 (2 + body.length) :: body

/-- The entry that the iterator makes of a device. -/
def entry : Device → DeviceEntry
  | short ty data data2 _ _ => .short (.fromByte ty) data data2
  | long ty bus devfn sourceId _ => .long (.fromByte ty) bus devfn sourceId
  | variableLen ty body _ _ _ => .variableLen (.fromByte ty) (ty :: BitVec.ofNat 8 (2 + body.length) :: body)

theorem fixed_of_needed {ty : U8} (h : needed ty = 8) : variableType ty = false := by
  revert ty
  decide

theorem whole (d : Device) : deviceFraming.Whole d.bytes := by
  cases d with
  | short ty data data2 fixed size =>
    refine ⟨Nat.le_refl 4, ?_⟩
    show (if variableType ty then _ else needed ty) = 4
    rw [if_neg (by rw [fixed]; decide), size]
  | long ty bus devfn sourceId size =>
    refine ⟨Nat.le_add_left 4 4, ?_⟩
    show (if variableType ty then _ else needed ty) = 8
    rw [if_neg (by rw [fixed_of_needed size]; decide), size]
  | variableLen ty body varies least fits =>
    have hlen : (variableLen ty body varies least fits).bytes.length = 2 + body.length := by
      rw [bytes, List.length_cons, List.length_cons]
      omega
    constructor
    · rw [hlen]
      exact Nat.add_le_add_left least 2
    · show (if variableType ty then (BitVec.ofNat 8 (2 + body.length)).toNat else _) = _
      rw [if_pos varies, BitVec.toNat_ofNat, Nat.mod_eq_of_lt fits, hlen]

theorem entry_eq (d : Device) : DeviceEntry.ofBytes d.bytes = d.entry := by
  cases d with
  | short ty data data2 fixed size =>
    show (if variableType ty then _ else if needed ty = 4 then _ else _) = _
    rw [if_neg (by rw [fixed]; decide), if_pos size]
    rfl
  | long ty bus devfn sourceId size =>
    show (if variableType ty then _ else if needed ty = 4 then _ else _) = _
    rw [if_neg (by rw [fixed_of_needed size]; decide), if_neg (by rw [size]; decide)]
    exact congrArg (DeviceEntry.long _ bus devfn) (u16FromLe_toLe sourceId)
  | variableLen ty body varies least fits => exact if_pos varies

end Device

theorem DeviceEntryIter.yields_devices (devices : List Device) :
    Yields DeviceEntryIter.next ⟨devices.flatMap Device.bytes⟩ (devices.map Device.entry) := by
  have hitems : (devices.map Device.bytes).map DeviceEntry.ofBytes = devices.map Device.entry := by
    rw [List.map_map]
    exact List.map_congr_left fun d _ => d.entry_eq
  rw [List.flatMap_def, ← hitems]
  exact devices_cuts.yields (Framing.tiles_whole (List.forall_mem_map.mpr fun d _ => d.whole))

/-! ### Blocks -/

/-- What the three types of hardware definitions have in common. -/
structure Hardware where
  flags : U8
  iommuId : U8
  segment : U16
  baseAddress : U64
  firstDevice : U8
  lastDevice : U8
  capability : U32
  devices : List Device

inductive Definition where
  | ivhd10 (h : Hardware)
  | ivhd11 (h : Hardware) (extendedFeatures : U32)
  | ivhd40 (h : Hardware) (extendedFeatures : U32)
  | ivmd (flags : U8) (segment : U16) (base length : U64)
  | unknown (ty flags : U8) (body : List U8)

/-- The fields of a hardware definition up to its capability. -/
def Hardware.fields (h : Hardware) : List U8 :=
  [h.iommuId] ++ u16ToLe h.segment ++ u64ToLe h.baseAddress ++ [h.firstDevice, h.lastDevice] ++ u32ToLe h.capability

namespace Definition

def ty : Definition → U8
  | ivhd10 _ => 0x10#8
  | ivhd11 _ _ => 0x11#8
  | ivhd40 _ _ => 0x40#8
  | ivmd _ _ _ _ => 0x20#8
  | unknown ty _ _ => ty

def flags : Definition → U8
  | ivhd10 h => h.flags
  | ivhd11 h _ => h.flags
  | ivhd40 h _ => h.flags
  | ivmd flags _ _ _ => flags
  | unknown _ flags _ => flags

/-- The fields after the length, with zeros where none is read. -/
def fields : Definition → List U8
  | ivhd10 h => h.fields ++ [0#8, 0#8, 0#8]
  | ivhd11 h extendedFeatures => h.fields ++ u32ToLe extendedFeatures ++ [0#8, 0#8, 0#8]
  | ivhd40 h extendedFeatures => h.fields ++ u32ToLe extendedFeatures ++ [0#8, 0#8, 0#8]
  | ivmd _ segment base length => u16ToLe segment ++ [0#8, 0#8] ++ u64ToLe base ++ u64ToLe length
  | unknown _ _ _ => []

/-- What follows the fields. -/
def rest : Definition → List U8
  | ivhd10 h => h.devices.flatMap Device.bytes
  | ivhd11 h _ => h.devices.flatMap Device.bytes
  | ivhd40 h _ => h.devices.flatMap Device.bytes
  | ivmd _ _ _ _ => []
  | unknown _ _ body => body

def size (d : Definition) : Nat := 4 + (d.fields.length + d.rest.length)

/-- The block up to its devices or its body. -/
def fixed (d : Definition) : List U8 := [d.ty, d.flags] ++ u16ToLe (BitVec.ofNat 16 d.size) ++ d.fields

def bytes (d : Definition) : List U8 := d.fixed ++ d.rest

/-- What a block can be written with. -/
structure Valid (d : Definition) : Prop where
  size : d.size < 2 ^ 16
  ty : ∀ ty flags body, d = unknown ty flags body → EntryType.fromByte ty = .reserved ty

theorem whole {d : Definition} (h : d.size < 2 ^ 16) : blockFraming.Whole d.bytes := by
  rw [bytes, fixed, List.append_assoc]
  exact whole_record _ _ h (congrArg (4 + ·) List.length_append)

end Definition

/-- The accessors give back a hardware definition. -/
structure Ivhd.Shows (b : Ivhd) (ty : EntryType) (extendedFeatures : Option U32) (h : Hardware) : Prop where
  entryType : b.entryType = .returns ty
  flags : b.flags = .returns h.flags
  iommuId : b.iommuId = .returns h.iommuId
  segment : b.segment = .returns h.segment
  baseAddress : b.baseAddress = .returns h.baseAddress
  deviceRange : b.deviceRange = some (h.firstDevice.setWidth 16, h.lastDevice.setWidth 16)
  capability : b.capability = .returns (some h.capability)
  extendedFeatures : b.extendedFeatures = .returns extendedFeatures
  devices : ∃ it, b.devices = .returns it ∧ Yields DeviceEntryIter.next it (h.devices.map Device.entry)

/-- The view of the block gives back the definition. -/
def Block.Shows (b : Block) : Definition → Prop
  | .ivhd10 h => ∃ u, b = .ivhd u ∧ u.Shows .ivhdType10 none h
  | .ivhd11 h extendedFeatures => ∃ u, b = .ivhd u ∧ u.Shows .ivhdType11 (some extendedFeatures) h
  | .ivhd40 h extendedFeatures => ∃ u, b = .ivhd u ∧ u.Shows .ivhdType40 (some extendedFeatures) h
  | .ivmd flags segment base length => ∃ u, b = .ivmd u ∧ u.flags = .returns flags ∧ u.segment = .returns segment ∧
      u.base = .returns base ∧ u.length = .returns length
  | .unknown ty flags body => ∃ front, b = .unknown ty (front ++ body) ∧ front.length = 4 ∧ front[1]? = some flags

/-! ### Fields -/

theorem Ivhd.baseAddress_eq {b : Ivhd} {v : U64} (h : getRange b.raw 7 15 = some (u64ToLe v)) :
    b.baseAddress = .returns v := by
  unfold baseAddress
  rw [h]
  exact u64FromLe_toLe v

theorem Ivhd.dwordAt_eq {b : Ivhd} {off : Nat} {v : U32} (h : getRange b.raw off (off + 4) = some (u32ToLe v)) :
    b.dwordAt off = .returns (some v) := by
  unfold dwordAt
  rw [h]
  exact congrArg (· >>= fun v => Exec.returns (some v)) (u32FromLe_toLe v)

theorem Ivmd.qwordAt_eq {b : Ivmd} {lo hi : Nat} {v : U64} (h : getRange b.raw lo hi = some (u64ToLe v)) :
    b.qwordAt lo hi = .returns v := by
  have hcopy : Exec.copyFromSlice 8 (u64ToLe v) = .returns (u64ToLe v) := Exec.copyFromSlice_of_eq (length_u64ToLe v)
  simp only [qwordAt, h, Option.getD_some, hcopy, Exec.returns_bind, u64FromLe_toLe]

/-- The bytes of a hardware definition: its header, with `more` after the capability, and its devices. -/
def Hardware.bytes (h : Hardware) (ty : U8) (length : U16) (more : List U8) : List U8 :=
  [ty, h.flags] ++ u16ToLe length ++ (h.fields ++ more) ++ h.devices.flatMap Device.bytes

theorem drop_header {header : List U8} {n : Nat} (h : header.length = n) (rest : List U8) :
    (if n ≤ (header ++ rest).length then (header ++ rest).drop n else []) = rest := by
  rw [if_pos (by rw [List.length_append]; omega), List.drop_left' h]

/-- What the three types do not have in common is their last field and where their devices start. -/
theorem Ivhd.shows {h : Hardware} {ty : U8} {length : U16} {more : List U8} {extendedFeatures : Option U32}
    (hfeatures : Ivhd.extendedFeatures ⟨h.bytes ty length more⟩ = .returns extendedFeatures)
    (hdevices : Ivhd.devices ⟨h.bytes ty length more⟩ = .returns ⟨h.devices.flatMap Device.bytes⟩) :
    Ivhd.Shows ⟨h.bytes ty length more⟩ (.fromByte ty) extendedFeatures h where
  entryType := rfl
  flags := rfl
  iommuId := rfl
  segment := congrArg Exec.returns (u16FromLe_toLe h.segment)
  baseAddress := Ivhd.baseAddress_eq (getRange_left rfl _)
  deviceRange := rfl
  capability := Ivhd.dwordAt_eq (getRange_left rfl _)
  extendedFeatures := hfeatures
  devices := ⟨_, hdevices, DeviceEntryIter.yields_devices h.devices⟩

/-- A block is written so that it is read. -/
theorem Definition.shows {d : Definition} (hd : d.Valid) : (Block.ofBytes d.bytes).Shows d := by
  have hafter : ∀ (header : List U8) n, header.length = n → ∀ rest,
      Exec.returns (DeviceEntryIter.mk (if n ≤ (header ++ rest).length then (header ++ rest).drop n else [])) =
        .returns ⟨rest⟩ := fun header n hn rest => by rw [drop_header hn]
  cases d with
  | ivhd10 h => exact ⟨⟨_⟩, rfl, Ivhd.shows rfl (hafter _ 24 rfl _)⟩
  | ivhd11 h extendedFeatures =>
    have hfeatures : Ivhd.dwordAt ⟨(ivhd11 h extendedFeatures).fixed ++ h.devices.flatMap Device.bytes⟩ 21 =
        .returns (some extendedFeatures) := Ivhd.dwordAt_eq (getRange_left rfl _)
    exact ⟨⟨_⟩, rfl, Ivhd.shows hfeatures (hafter _ 28 rfl _)⟩
  | ivhd40 h extendedFeatures =>
    have hfeatures : Ivhd.dwordAt ⟨(ivhd40 h extendedFeatures).fixed ++ h.devices.flatMap Device.bytes⟩ 21 =
        .returns (some extendedFeatures) := Ivhd.dwordAt_eq (getRange_left rfl _)
    exact ⟨⟨_⟩, rfl, Ivhd.shows hfeatures (hafter _ 28 rfl _)⟩
  | ivmd flags segment base length =>
    exact ⟨⟨_⟩, rfl, rfl, congrArg Exec.returns (u16FromLe_toLe segment), Ivmd.qwordAt_eq (getRange_left rfl _),
      Ivmd.qwordAt_eq (getRange_left rfl _)⟩
  | unknown ty flags body =>
    refine ⟨(unknown ty flags body).fixed, ?_, rfl, rfl⟩
    show Block.ofType ty _ = _
    unfold Block.ofType
    rw [hd.ty ty flags body rfl]
    rfl

/-! ### Tables -/

structure Data where
  revision : U8
  /-- The header from the OEM id on. -/
  header : List U8
  definitions : List Definition
  length_header : header.length = 34
  valid : ∀ d ∈ definitions, d.Valid
  fits : blocksOffset + (definitions.flatMap Definition.bytes).length < 2 ^ 32

def Data.bytes (d : Data) : List U8 :=
  sealed ivrsSignature d.revision (d.header ++ d.definitions.flatMap Definition.bytes)

/-- The table gives back the data, and each iterator ends there. -/
structure IvrsTable.Shows (t : IvrsTable) (d : Data) : Prop where
  revision : t.revision = .returns d.revision
  blocks : ∃ it blocks, t.blocks = .returns it ∧ Yields BlockIter.next it blocks ∧
    List.Forall₂ Block.Shows blocks d.definitions ∧ t.ivhdUnits = .returns it ∧
    Yields nextIvhd it (blocks.filterMap Block.asIvhd) ∧ t.ivmdUnits = .returns it ∧
    Yields nextIvmd it (blocks.filterMap Block.asIvmd)

namespace Data
variable (d : Data)

theorem header_offset : 10 + d.header.length = kind.offset := congrArg (10 + ·) d.length_header

theorem accepted : kind.Accepted d.bytes ⟨d.bytes⟩ := sealed_accepted d.revision kind rfl d.header_offset _ d.fits

theorem drop_bytes : d.bytes.drop blocksOffset = d.definitions.flatMap Definition.bytes :=
  drop_sealed d.revision kind rfl d.header_offset _

theorem shows : IvrsTable.Shows ⟨d.bytes⟩ d where
  revision := rfl
  blocks := by
    have hblocks := IvrsTable.blocks_eq d.accepted
    rw [d.drop_bytes] at hblocks
    have hyields : Yields BlockIter.next ⟨d.definitions.flatMap Definition.bytes⟩
        ((d.definitions.map Definition.bytes).map Block.ofBytes) := by
      rw [List.flatMap_def]
      exact blocks_cuts.yields
        (Framing.tiles_whole (List.forall_mem_map.mpr fun b hb => Definition.whole (d.valid b hb).size))
    refine ⟨_, _, hblocks, hyields, ?_, hblocks, filterMap_yields hyields, hblocks, filterMap_yields hyields⟩
    rw [List.map_map, List.forall₂_map_left_iff, List.forall₂_same]
    exact fun b hb => Definition.shows (d.valid b hb)

end Data

/-- A unit with a device of each shape, and a range of memory. -/
def unitData : Data where
  revision := 2#8
  header := List.replicate 34 0#8
  definitions :=
    [.ivhd11 ⟨0x40#8, 2#8, 0#16, 0xfed80000#64, 0#8, 0xff#8, 0x1234#32, [.short 2#8 8#8 0#8 rfl rfl,
        .long 3#8 1#8 0x10#8 0x20#16 rfl, .variableLen 0x48#8 [0xff#8, 0xa0#8, 0#8] rfl (by decide) (by decide)]⟩ 0xef#32,
      .ivmd 8#8 0#16 0x7f000000#64 0x2000#64]
  length_header := rfl
  valid := List.forall_mem_cons.mpr ⟨⟨by decide, fun _ _ _ h => (by cases h)⟩,
    List.forall_mem_singleton.mpr ⟨by decide, fun _ _ _ h => (by cases h)⟩⟩
  fits := by decide

set_option maxRecDepth 2048 in
example : IvrsTable.new unitData.bytes = .returns (.ok ⟨unitData.bytes⟩) := rfl

end Iommu.Amd.Ivrs
