import Iommu.Intel.DmarAccess

/-! What the fields of a DMAR table are read from.

A reader gives zero for a field that ends past its structure. Such a field is told
from one of zeros by what follows the structure: more bytes change the value of an
access unless it is inside (`Inside`). In a structure of its documented size every
access is, but for one of the affinity structure, whose fields are four bytes longer
than its size (`complete_fields_iff`).

The source id of a scope entry is made of unchecked bytes. Its device number is not
cut to five bits, and stays off the bus exactly when its upper bits are bits of the
bus already (`stays_on_bus_iff`). -/
namespace Iommu.Intel.Dmar
open Lib Lib.Word

/-! ### Readers -/

theorem append_ne_zero {n m : Nat} {x : BitVec n} (y : BitVec m) (h : x ≠ 0#n) : x ++ y ≠ 0#(n + m) := by
  intro hzero
  have hhigh := congrArg (fun z : BitVec (n + m) => z.extractLsb' m n) hzero
  simp only [BitVec.extractLsb'_append_eq_left, BitVec.extractLsb'_zero] at hhigh
  exact h hhigh

theorem le16_inside_iff (raw : List U8) (off : Nat) :
    Inside (fun raw => le16 raw off) raw ↔ off + 2 ≤ raw.length := by
  simp only [le16_eq]
  refine readOr_inside_iff 1#8 (by decide) (fun field hlen => ?_) raw off
  match field, hlen with
  | [a], _ => exact fun h => append_ne_zero a (by decide) (Exec.returns.inj h)

theorem le32_inside_iff (raw : List U8) (off : Nat) :
    Inside (fun raw => le32 raw off) raw ↔ off + 4 ≤ raw.length := by
  simp only [le32_eq]
  refine readOr_inside_iff 1#8 (by decide) (fun field hlen => ?_) raw off
  match field, hlen with
  | [a, b, c], _ =>
    have hfield : (1#8 ++ c ++ b ++ a : U32) ≠ 0#32 := by
      iterate 3 apply append_ne_zero
      decide
    exact fun h => hfield (Exec.returns.inj h)

theorem le64_inside_iff (raw : List U8) (off : Nat) :
    Inside (fun raw => le64 raw off) raw ↔ off + 8 ≤ raw.length := by
  simp only [le64_eq]
  refine readOr_inside_iff 1#8 (by decide) (fun field hlen => ?_) raw off
  match field, hlen with
  | [a, b, c, d, e, f, g], _ =>
    have hfield : (1#8 ++ g ++ f ++ e ++ d ++ c ++ b ++ a : U64) ≠ 0#64 := by
      iterate 7 apply append_ne_zero
      decide
    exact fun h => hfield (Exec.returns.inj h)

/-- A value that is computed from one byte. -/
theorem byte_inside_iff {β : Type} (f : U8 → β) (hf : f 1#8 ≠ f 0#8) (raw : List U8) (off : Nat) :
    Inside (fun raw => f (byteOrZero raw off)) raw ↔ off < raw.length := getD_inside_iff 1#8 hf raw off

/-! ### Structures -/

/-- The size of the fixed part, as it is documented. -/
def RemapStruct.fixedSize : RemapStruct → Nat
  | drhd _ => 16
  | rmrr _ => 24
  | atsr _ => 8
  | rhsa _ => 20
  | andd _ => 10
  | satc _ => 8
  | sidp _ => 8
  | unknown _ _ => 0

/-- Every access to a field of the fixed part is inside the structure. -/
def RemapStruct.FieldsInside : RemapStruct → Prop
  | drhd s => Inside (fun raw => Drhd.includePciAll ⟨raw⟩) s.raw ∧
      Inside (fun raw => Drhd.registerSizeOrder ⟨raw⟩) s.raw ∧ Inside (fun raw => Drhd.registerSize ⟨raw⟩) s.raw ∧
      Inside (fun raw => Drhd.segment ⟨raw⟩) s.raw ∧ Inside (fun raw => Drhd.registerBase ⟨raw⟩) s.raw
  | rmrr s => Inside (fun raw => Rmrr.segment ⟨raw⟩) s.raw ∧ Inside (fun raw => Rmrr.base ⟨raw⟩) s.raw ∧
      Inside (fun raw => Rmrr.limit ⟨raw⟩) s.raw
  | atsr s => Inside (fun raw => Atsr.allPorts ⟨raw⟩) s.raw ∧ Inside (fun raw => Atsr.segment ⟨raw⟩) s.raw
  | rhsa s => Inside (fun raw => Rhsa.segment ⟨raw⟩) s.raw ∧ Inside (fun raw => Rhsa.base ⟨raw⟩) s.raw ∧
      Inside (fun raw => Rhsa.proximityDomain ⟨raw⟩) s.raw
  | andd s => Inside (fun raw => Andd.acpiDeviceNumber ⟨raw⟩) s.raw ∧ Inside (fun raw => Andd.segment ⟨raw⟩) s.raw
  | satc s => Inside (fun raw => Satc.atcRequired ⟨raw⟩) s.raw ∧ Inside (fun raw => Satc.segment ⟨raw⟩) s.raw
  | sidp s => Inside (fun raw => Sidp.segment ⟨raw⟩) s.raw
  | unknown _ _ => True

/-- Bit 0 of a byte is a flag. -/
theorem flag_inside_iff (raw : List U8) (off : Nat) :
    Inside (fun raw => byteOrZero raw off &&& 1#8 != 0#8) raw ↔ off < raw.length :=
  byte_inside_iff (fun b => b &&& 1#8 != 0#8) (by decide) raw off

/-- The fields of an affinity structure end at byte 24. -/
theorem Rhsa.inside_iff (s : Rhsa) : (RemapStruct.rhsa s).FieldsInside ↔ 24 ≤ s.raw.length := by
  have hsegment := le32_inside_iff s.raw 8
  have hbase := le64_inside_iff s.raw 12
  have hdomain := le32_inside_iff s.raw 20
  constructor
  · intro ⟨_, _, h⟩
    exact hdomain.mp h
  · intro h
    exact ⟨hsegment.mpr (by omega), hbase.mpr (by omega), hdomain.mpr h⟩

theorem RemapStruct.fieldsInside_iff {s : RemapStruct} (h : s.fixedSize ≤ s.raw.length) :
    s.FieldsInside ↔ ∀ r, s = .rhsa r → 24 ≤ r.raw.length := by
  cases s with
  | rhsa r =>
    rw [r.inside_iff]
    exact ⟨fun hlen r' heq => by cases heq; exact hlen, fun hall => hall r rfl⟩
  | drhd s =>
    have hlen : 16 ≤ s.raw.length := h
    have horder := byte_inside_iff (fun b => b &&& 0x0f#8) (by decide) s.raw 5
    have hsize := byte_inside_iff (fun b => Exec.add 12#32 ((b &&& 0x0f#8).setWidth 32) >>= fun order =>
      Exec.shl 1#64 order.toNat) (by decide) s.raw 5
    refine iff_of_true ⟨?_, ?_, ?_, ?_, ?_⟩ fun r hr => nomatch hr
    · exact (flag_inside_iff s.raw 4).mpr (by omega)
    · exact horder.mpr (by omega)
    · exact hsize.mpr (by omega)
    · exact (le16_inside_iff s.raw 6).mpr (by omega)
    · exact (le64_inside_iff s.raw 8).mpr (by omega)
  | rmrr s =>
    have hlen : 24 ≤ s.raw.length := h
    refine iff_of_true ⟨?_, ?_, ?_⟩ fun r hr => nomatch hr
    · exact (le16_inside_iff s.raw 6).mpr (by omega)
    · exact (le64_inside_iff s.raw 8).mpr (by omega)
    · exact (le64_inside_iff s.raw 16).mpr (by omega)
  | atsr s | satc s =>
    have hlen : 8 ≤ s.raw.length := h
    refine iff_of_true ⟨?_, ?_⟩ fun r hr => nomatch hr
    · exact (flag_inside_iff s.raw 4).mpr (by omega)
    · exact (le16_inside_iff s.raw 6).mpr (by omega)
  | sidp s =>
    have hlen : 8 ≤ s.raw.length := h
    exact iff_of_true ((le16_inside_iff s.raw 6).mpr (by omega)) fun r hr => nomatch hr
  | andd s =>
    have hlen : 10 ≤ s.raw.length := h
    refine iff_of_true ⟨?_, ?_⟩ fun r hr => nomatch hr
    · exact (byte_inside_iff id (by decide) s.raw 7).mpr (by omega)
    · exact (le16_inside_iff s.raw 8).mpr (by omega)
  | unknown ty raw => exact iff_of_true trivial fun r hr => nomatch hr

/-- **In an accepted table, complete structures are read from their own bytes**, but for
an affinity structure of fewer than 24. -/
theorem complete_fields_iff (raw : List U8) (t : DmarTable) (h : DmarTable.new raw = .returns (.ok t)) :
    ∃ it structs, t.structs = .returns it ∧ Yields StructIter.next it structs ∧
      ∀ s ∈ structs, s.fixedSize ≤ s.raw.length →
        (s.FieldsInside ↔ ∀ r, s = .rhsa r → 24 ≤ r.raw.length) := by
  obtain ⟨frames, tail, htiles⟩ := structFraming.exists_tiles (t.raw.drop structsOffset)
  exact ⟨_, _, DmarTable.structs_eq (DmarTable.accepted h), structs_cuts.yields htiles,
    fun s _ hsize => s.fieldsInside_iff hsize⟩

set_option maxRecDepth 2048 in
theorem docTable_complete : ∃ it structs, DmarTable.structs ⟨docTable⟩ = .returns it ∧
    Yields StructIter.next it structs ∧ ∀ s ∈ structs, s.fixedSize ≤ s.raw.length →
      (s.FieldsInside ↔ ∀ r, s = .rhsa r → 24 ≤ r.raw.length) :=
  complete_fields_iff docTable ⟨docTable⟩ rfl

/-- An affinity structure of its documented size, its proximity domain in its last bytes. -/
def affinity : List U8 :=
  [3#8, 0#8, 20#8, 0#8, 0#8, 0#8, 0#8, 0#8, 0#8, 0#8, 0xd9#8, 0xfe#8, 0#8, 0#8, 0#8, 0#8, 1#8, 0#8, 0#8, 0#8]

theorem affinity_wellFormed : (RemapStruct.rhsa ⟨affinity⟩).WellFormed :=
  ⟨by decide, by decide, rfl⟩

/-- A table with that structure is accepted, and its proximity domain is read as 0. -/
theorem affinity_reads_default : ∃ t it,
    DmarTable.new (Acpi.sealed dmarSignature 1#8 (List.replicate 38 0#8 ++ affinity)) = .returns (.ok t) ∧
    t.structs = .returns it ∧ Yields StructIter.next it [.rhsa ⟨affinity⟩] ∧
    (RemapStruct.rhsa ⟨affinity⟩).fixedSize ≤ affinity.length ∧ Rhsa.proximityDomain ⟨affinity⟩ = .returns 0#32 ∧
    ¬(RemapStruct.rhsa ⟨affinity⟩).FieldsInside := by
  obtain ⟨t, it, hnew, hstructs, hyields⟩ := build_round_trip 1#8 (List.length_replicate) [.rhsa ⟨affinity⟩]
    (List.forall_mem_singleton.mpr affinity_wellFormed) (by decide)
  have hinside := (Rhsa.inside_iff ⟨affinity⟩).not.mpr (by decide)
  exact ⟨t, it, hnew, hstructs, hyields, by decide, rfl, hinside⟩

/-! ### Source ids -/

/-- The id of the first pair of a path keeps the bus, the lower five bits of the device
number and the lower three of the function number in their places. -/
def DeviceScope.StaysOnBus (s : DeviceScope) : Prop :=
  ∀ device function rest, s.path = device :: function :: rest → ∃ id, s.firstSourceId = .returns (some id) ∧
    id >>> 8 = s.bus.setWidth 16 ∧ id >>> 3 &&& 0x1f#16 = (device &&& 0x1f#8).setWidth 16 ∧
    id &&& 0x7#16 = (function &&& 0x7#8).setWidth 16

/-- The id as its three fields; the device number reaches three bits into the bus. -/
theorem DeviceScope.firstSourceId_eq (s : DeviceScope) {device function : U8} {rest : List U8}
    (h : s.path = device :: function :: rest) : s.firstSourceId = .returns (some
      (place 16 8 s.bus ||| place 16 3 device ||| place 16 0 (function.extractLsb' 0 3))) := by
  have hmask : 0x07#8 = mask 8 0 3 := rfl
  have hfunction : (function &&& 0x07#8).setWidth 16 = place 16 0 (function.extractLsb' 0 3) := by
    rw [hmask, ← place_and_mask function 0 (by decide), place_zero]
  rw [firstSourceId, h, ← hfunction]
  rfl

section SourceId
variable (bus device function : U8)

theorem sourceId_bus :
    (place 16 8 bus ||| place 16 3 device ||| place 16 0 (function.extractLsb' 0 3) : U16).extractLsb' 8 8 =
      bus ||| device >>> 5 := by
  have hdevice : (place 16 3 device).extractLsb' 8 8 = device.extractLsb' 5 8 :=
    slice_place_within 3 5 device (by decide)
  rw [BitVec.extractLsb'_or, BitVec.extractLsb'_or, slice_place 8 bus (by decide), hdevice,
    slice_place_apart 8 0 _ (by decide), BitVec.or_zero, ← setWidth_shift, BitVec.setWidth_eq]

theorem sourceId_device :
    (place 16 8 bus ||| place 16 3 device ||| place 16 0 (function.extractLsb' 0 3) : U16).extractLsb' 3 5 =
      device.extractLsb' 0 5 := by
  have hdevice : (place 16 3 device).extractLsb' 3 5 = device.extractLsb' 0 5 :=
    slice_place_within 3 0 device (by decide)
  rw [BitVec.extractLsb'_or, BitVec.extractLsb'_or, slice_place_apart 3 8 bus (by decide), hdevice,
    slice_place_apart 3 0 _ (by decide), BitVec.or_zero, BitVec.zero_or]

theorem sourceId_function :
    (place 16 8 bus ||| place 16 3 device ||| place 16 0 (function.extractLsb' 0 3) : U16).extractLsb' 0 3 =
      function.extractLsb' 0 3 := by
  rw [BitVec.extractLsb'_or, BitVec.extractLsb'_or, slice_place_apart 0 8 bus (by decide),
    slice_place_apart 0 3 device (by decide), slice_place 0 _ (by decide), BitVec.zero_or, BitVec.zero_or]

end SourceId

/-- A 16-bit word shifted and masked is one of its slices, and so is a masked byte. -/
theorem masked_eq_iff (n lo : Nat) (x : U16) (b : U8) (hn : n ≤ 8) :
    x >>> lo &&& mask 16 0 n = (b &&& mask 8 0 n).setWidth 16 ↔ x.extractLsb' lo n = b.extractLsb' 0 n := by
  rw [and_mask_zero, masked_low n b hn, setWidth_shift, setWidth_eq_slice n b]
  exact (setWidth_injective (Nat.le_trans hn (by decide))).eq_iff

theorem DeviceScope.staysOnBus_iff (s : DeviceScope) : s.StaysOnBus ↔
    ∀ device function rest, s.path = device :: function :: rest → s.bus ||| device >>> 5 = s.bus := by
  refine forall₃_congr fun device function rest => forall_congr' fun hpath => ?_
  let id := place 16 8 s.bus ||| place 16 3 device ||| place 16 0 (function.extractLsb' 0 3)
  have hbus : id >>> 8 = s.bus.setWidth 16 ↔ s.bus ||| device >>> 5 = s.bus := by
    rw [shift_eq_place 8 id 8 rfl, place_zero, sourceId_bus]
    exact (setWidth_injective (by decide)).eq_iff
  have hdevice : id >>> 3 &&& 0x1f#16 = (device &&& 0x1f#8).setWidth 16 :=
    (masked_eq_iff 5 3 id device (by decide)).mpr (sourceId_device s.bus device function)
  have hfunction : id >>> 0 &&& 0x7#16 = (function &&& 0x7#8).setWidth 16 :=
    (masked_eq_iff 3 0 id function (by decide)).mpr (sourceId_function s.bus device function)
  rw [BitVec.ushiftRight_zero] at hfunction
  rw [s.firstSourceId_eq hpath]
  constructor
  · rintro ⟨_, ⟨⟩, h, -⟩
    exact hbus.mp h
  · intro h
    exact ⟨id, rfl, hbus.mpr h, hdevice, hfunction⟩

/-- An id comes from a pair. -/
theorem DeviceScope.pair_of_sourceId {s : DeviceScope} {id : U16} (h : s.firstSourceId = .returns (some id)) :
    ∃ device function rest, s.path = device :: function :: rest := by
  rw [firstSourceId] at h
  rcases hpath : s.path with _ | ⟨device, _ | ⟨function, rest⟩⟩
  · rw [hpath] at h
    cases h
  · rw [hpath] at h
    cases h
  · exact ⟨device, function, rest, rfl⟩

theorem DeviceScope.StaysOnBus.bus_eq {s : DeviceScope} (h : s.StaysOnBus) {id : U16}
    (hid : s.firstSourceId = .returns (some id)) : id >>> 8 = s.bus.setWidth 16 := by
  obtain ⟨device, function, rest, hpath⟩ := DeviceScope.pair_of_sourceId hid
  obtain ⟨id', hid', hbus, -⟩ := h device function rest hpath
  rw [hid] at hid'
  cases hid'
  exact hbus

/-- **When a source id stays on its bus**: when the device number has no bit above its
fifth that the bus has not. Then entries on different buses have different ids. -/
theorem stays_on_bus_iff (s : DeviceScope) :
    (s.StaysOnBus ↔
      ∀ device function rest, s.path = device :: function :: rest → s.bus ||| device >>> 5 = s.bus) ∧
    ∀ s' : DeviceScope, s.StaysOnBus → s'.StaysOnBus → s.bus ≠ s'.bus → ∀ id id',
      s.firstSourceId = .returns (some id) → s'.firstSourceId = .returns (some id') → id ≠ id' := by
  refine ⟨s.staysOnBus_iff, fun s' h h' hne id id' hid hid' heq => ?_⟩
  have hbus := h.bus_eq hid
  rw [heq, h'.bus_eq hid'] at hbus
  exact hne (setWidth_injective (by decide) hbus.symm)

/-- An endpoint entry of a bus, with one pair in its path. -/
def endpoint (bus device function : U8) : DeviceScope := ⟨.pciEndpoint, bus, 0#8, 0#16, [device, function]⟩

theorem endpoint_stays {bus device : U8} (function : U8) (h : bus ||| device >>> 5 = bus) :
    (endpoint bus device function).StaysOnBus := by
  refine (endpoint bus device function).staysOnBus_iff.mpr fun d f rest hpath => ?_
  have hpair : [device, function] = d :: f :: rest := hpath
  cases hpair
  exact h

/-- The last functions of buses 1 and 2. -/
theorem last_functions_differ :
    (endpoint 1#8 0x1f#8 7#8).firstSourceId = .returns (some 0x01ff#16) ∧
      (endpoint 2#8 0x1f#8 7#8).firstSourceId = .returns (some 0x02ff#16) ∧ (0x01ff#16 : U16) ≠ 0x02ff#16 :=
  ⟨rfl, rfl, (stays_on_bus_iff (endpoint 1#8 0x1f#8 7#8)).2 (endpoint 2#8 0x1f#8 7#8) (endpoint_stays 7#8 (by decide))
    (endpoint_stays 7#8 (by decide)) (by decide) _ _ rfl rfl⟩

/-- An endpoint entry on bus 0 whose device number is 32, and one of device 0 on bus 1. -/
def strayEntry : List U8 := [0x01#8, 8#8, 0#8, 0#8, 0#8, 0#8, 0x20#8, 0#8]

def busOneEntry : List U8 := [0x01#8, 8#8, 0#8, 0#8, 0#8, 1#8, 0#8, 0#8]

/-- Both are yielded, and have the same id. -/
theorem source_ids_clash : ∃ s s' it,
    DeviceScopeIter.next ⟨strayEntry ++ busOneEntry⟩ = .returns (some s, it) ∧
    (∃ it', DeviceScopeIter.next it = .returns (some s', it')) ∧ s.bus ≠ s'.bus ∧
    s.firstSourceId = .returns (some 0x0100#16) ∧ s'.firstSourceId = .returns (some 0x0100#16) ∧ ¬s.StaysOnBus := by
  refine ⟨_, _, _, rfl, ⟨_, rfl⟩, by decide, rfl, rfl, fun h => ?_⟩
  have hbus := (DeviceScope.staysOnBus_iff _).mp h 0x20#8 0#8 [] rfl
  exact absurd hbus (by decide)

end Iommu.Intel.Dmar
