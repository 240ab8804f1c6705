import Iommu.Integrity
import Iommu.Intel.DmarFields

/-! DMAR tables as the data that they hold.

To its reader a table is a width, two flags and a list of remapping structures, and to
five of the structures belongs a list of device scopes with their paths. Written with the
fields where the accessors read them, and sealed, every such table is accepted, and the
iterators and the accessors give back the data, on every level (`dmar_round_trip`). -/
namespace Iommu.Intel.Dmar
open Lib Acpi

/-! ### Fields in memory -/

theorem le16_toLe {raw : List U8} {off : Nat} (v : U16) (h : getRange raw off (off + 2) = some (u16ToLe v)) :
    le16 raw off = .returns v := by
  unfold le16
  rw [h]
  exact congrArg Exec.returns (u16FromLe_toLe v)

theorem le32_toLe {raw : List U8} {off : Nat} (v : U32) (h : getRange raw off (off + 4) = some (u32ToLe v)) :
    le32 raw off = .returns v := by
  unfold le32
  rw [h]
  exact u32FromLe_toLe v

theorem le64_toLe {raw : List U8} {off : Nat} (v : U64) (h : getRange raw off (off + 8) = some (u64ToLe v)) :
    le64 raw off = .returns v := by
  unfold le64
  rw [h]
  exact u64FromLe_toLe v

/-! ### Device scopes -/

/-- A device, by the device and function numbers on the way to it. -/
structure Scope where
  ty : U8
  flags : U16
  enumerationId : U8
  bus : U8
  path : List (U8 × U8)
  path_fits : 6 + 2 * path.length < 2 ^ 8

namespace Scope

/-- The path as it is stored. -/
def pathBytes (s : Scope) : List U8 := s.path.flatMap fun pair => [pair.1, pair.2]

def bytes (s : Scope) : List U8 :=
  [s.ty, BitVec.ofNat 8 (6 + 2 * s.path.length)] ++ u16ToLe s.flags ++ [s.enumerationId, s.bus] ++ s.pathBytes

/-- The source id that the first hop has on the bus of a scope. -/
def sourceId (s : Scope) (hop : U8 × U8) : U16 :=
  s.bus.setWidth 16 <<< 8 ||| hop.1.setWidth 16 <<< 3 ||| (hop.2 &&& 0x07#8).setWidth 16

end Scope

/-- The entry gives back the scope. -/
structure DeviceScope.Shows (e : DeviceScope) (s : Scope) : Prop where
  ty : e.ty = .fromByte s.ty
  flags : e.flags = s.flags
  enumerationId : e.enumerationId = s.enumerationId
  bus : e.bus = s.bus
  pathPairs : e.pathPairs = .returns s.path
  firstSourceId : e.firstSourceId = .returns (s.path.head?.map s.sourceId)

theorem chunksExact2_pairs (path : List (U8 × U8)) :
    chunksExact2 (path.flatMap fun pair => [pair.1, pair.2]) = path.map fun pair => [pair.1, pair.2] := by
  induction path with
  | nil => rfl
  | cons pair path ih =>
    simp only [List.flatMap_cons, List.cons_append, List.nil_append, chunksExact2, List.map_cons, ih]

theorem mapM'_pairs (path : List (U8 × U8)) :
    (path.map fun pair => [pair.1, pair.2]).mapM' (fun pair => do
      let device ← Exec.index pair 0
      let function ← Exec.index pair 1
      return (device, function)) = Exec.returns path := by
  induction path with
  | nil => rfl
  | cons pair path ih =>
    rw [List.map_cons, List.mapM'_cons, ih]
    rfl

namespace Scope

theorem length_pathBytes (s : Scope) : s.pathBytes.length = 2 * s.path.length := by
  rw [pathBytes]
  generalize s.path = path
  induction path with
  | nil => rfl
  | cons pair path ih =>
    simp only [List.flatMap_cons, List.length_append, List.length_cons, List.length_nil, ih]
    omega

theorem whole (s : Scope) : scopeFraming.Whole s.bytes := by
  have hlen : s.bytes.length = 6 + 2 * s.path.length := by
    simp only [bytes, List.length_append, List.length_cons, List.length_nil, length_u16ToLe, s.length_pathBytes]
  constructor
  · rw [hlen]
    exact Nat.le_add_right 6 _
  · rw [hlen]
    show (BitVec.ofNat 8 (6 + 2 * s.path.length)).toNat = _
    rw [BitVec.toNat_ofNat, Nat.mod_eq_of_lt s.path_fits]

theorem shows (s : Scope) : (DeviceScope.ofBytes s.bytes).Shows s where
  ty := rfl
  flags := u16FromLe_toLe s.flags
  enumerationId := rfl
  bus := rfl
  pathPairs := by
    show (chunksExact2 s.pathBytes).mapM' _ = _
    rw [pathBytes, chunksExact2_pairs]
    exact mapM'_pairs s.path
  firstSourceId := by
    have hpath : (DeviceScope.ofBytes s.bytes).path = s.pathBytes := rfl
    rw [DeviceScope.firstSourceId, hpath, pathBytes, chunksExact2_pairs, List.head?_map]
    cases s.path <;> rfl

end Scope

/-- The iterator yields a list of scopes. -/
def DeviceScopeIter.Shows (it : DeviceScopeIter) (scopes : List Scope) : Prop :=
  ∃ entries, Yields DeviceScopeIter.next it entries ∧ List.Forall₂ DeviceScope.Shows entries scopes

theorem DeviceScopeIter.shows (scopes : List Scope) : Shows ⟨scopes.flatMap Scope.bytes⟩ scopes := by
  refine ⟨(scopes.map Scope.bytes).map DeviceScope.ofBytes, ?_, ?_⟩
  · rw [List.flatMap_def]
    exact scopes_cuts.yields (Framing.tiles_whole (List.forall_mem_map.mpr fun s _ => s.whole))
  · rw [List.map_map, List.forall₂_map_left_iff]
    exact List.forall₂_same.mpr fun s _ => s.shows

/-! ### Remapping structures -/

inductive Record where
  | drhd (includePciAll : Bool) (order : BitVec 4) (segment : U16) (registerBase : U64) (scopes : List Scope)
  | rmrr (segment : U16) (base limit : U64) (scopes : List Scope)
  | atsr (allPorts : Bool) (segment : U16) (scopes : List Scope)
  | rhsa (segment : U32) (base : U64) (proximityDomain : U32)
  | andd (acpiDeviceNumber : U8) (segment : U16) (objectName : List U8)
  | satc (atcRequired : Bool) (segment : U16) (scopes : List Scope)
  | sidp (segment : U16) (scopes : List Scope)
  | unknown (ty : U8) (body : List U8)

namespace Record

def ty : Record → U8
  | drhd .. => 0#8
  | rmrr .. => 1#8
  | atsr .. => 2#8
  | rhsa .. => 3#8
  | andd .. => 4#8
  | satc .. => 5#8
  | sidp .. => 6#8
  | unknown ty _ => ty

/-- The fields after the type and the length, with zeros where none is read. -/
def fields : Record → List U8
  | drhd includePciAll order segment registerBase _ =>
    [boolAs 8 includePciAll, order.setWidth 8] ++ u16ToLe segment ++ u64ToLe registerBase
  | rmrr segment base limit _ => [0#8, 0#8] ++ u16ToLe segment ++ u64ToLe base ++ u64ToLe limit
  | atsr allPorts segment _ => [boolAs 8 allPorts, 0#8] ++ u16ToLe segment
  | rhsa segment base proximityDomain =>
    [0#8, 0#8, 0#8, 0#8] ++ u32ToLe segment ++ u64ToLe base ++ u32ToLe proximityDomain
  | andd acpiDeviceNumber segment _ => [0#8, 0#8, 0#8, acpiDeviceNumber] ++ u16ToLe segment
  | satc atcRequired segment _ => [boolAs 8 atcRequired, 0#8] ++ u16ToLe segment
  | sidp segment _ => [0#8, 0#8] ++ u16ToLe segment
  | unknown _ _ => []

/-- What follows the fields. -/
def rest : Record → List U8
  | drhd _ _ _ _ scopes => scopes.flatMap Scope.bytes
  | rmrr _ _ _ scopes => scopes.flatMap Scope.bytes
  | atsr _ _ scopes => scopes.flatMap Scope.bytes
  | rhsa _ _ _ => []
  | andd _ _ objectName => objectName ++ [0#8]
  | satc _ _ scopes => scopes.flatMap Scope.bytes
  | sidp _ scopes => scopes.flatMap Scope.bytes
  | unknown _ body => body

def size (r : Record) : Nat := 4 + (r.fields.length + r.rest.length)

/-- The structure up to its scopes, its name or its body. -/
def fixed (r : Record) : List U8 := [r.ty, 0#8] ++ u16ToLe (BitVec.ofNat 16 r.size) ++ r.fields

def bytes (r : Record) : List U8 := r.fixed ++ r.rest

/-- What a structure can be written with. -/
structure Valid (r : Record) : Prop where
  size : r.size < 2 ^ 16
  objectName : ∀ acpiDeviceNumber segment objectName, r = andd acpiDeviceNumber segment objectName → 0#8 ∉ objectName
  ty : ∀ ty body, r = unknown ty body → 7#8 ≤ ty

end Record

/-- The accessors of the structure give back the record. -/
def RemapStruct.Shows (s : RemapStruct) : Record → Prop
  | .drhd includePciAll order segment registerBase scopes => ∃ u, s = .drhd u ∧ u.includePciAll = includePciAll ∧
      u.registerSizeOrder = order.setWidth 8 ∧ u.segment = .returns segment ∧ u.registerBase = .returns registerBase ∧
      (∃ size, u.registerSize = .returns size ∧ size.toNat = 2 ^ (12 + order.toNat)) ∧ u.scopes.Shows scopes
  | .rmrr segment base limit scopes => ∃ u, s = .rmrr u ∧ u.segment = .returns segment ∧ u.base = .returns base ∧
      u.limit = .returns limit ∧ u.scopes.Shows scopes
  | .atsr allPorts segment scopes => ∃ u, s = .atsr u ∧ u.allPorts = allPorts ∧ u.segment = .returns segment ∧
      u.scopes.Shows scopes
  | .rhsa segment base proximityDomain => ∃ u, s = .rhsa u ∧ u.segment = .returns segment ∧ u.base = .returns base ∧
      u.proximityDomain = .returns proximityDomain
  | .andd acpiDeviceNumber segment objectName => ∃ u, s = .andd u ∧ u.acpiDeviceNumber = acpiDeviceNumber ∧
      u.segment = .returns segment ∧ u.objectName = .returns objectName
  | .satc atcRequired segment scopes => ∃ u, s = .satc u ∧ u.atcRequired = atcRequired ∧
      u.segment = .returns segment ∧ u.scopes.Shows scopes
  | .sidp segment scopes => ∃ u, s = .sidp u ∧ u.segment = .returns segment ∧ u.scopes.Shows scopes
  | .unknown ty body => ∃ header, s = .unknown ty (header ++ body) ∧ header.length = 4

namespace Record

theorem whole {r : Record} (h : r.size < 2 ^ 16) : structFraming.Whole r.bytes := by
  rw [bytes, fixed, List.append_assoc]
  exact whole_record _ _ h (congrArg (4 + ·) List.length_append)

end Record

/-! ### Fields -/

theorem bool_of_flag (b : Bool) : (boolAs 8 b &&& 1#8 != 0#8) = b := by cases b <;> rfl

theorem scopes_shows {fixed : Nat} {front : List U8} (h : front.length = fixed) (scopes : List Scope) :
    (scopesAfter fixed (front ++ scopes.flatMap Scope.bytes)).Shows scopes := by
  rw [scopesAfter_eq, List.drop_left' h]
  exact DeviceScopeIter.shows scopes

theorem Drhd.registerSize_eq {s : Drhd} {order : BitVec 4} (h : s.registerSizeOrder = order.setWidth 8) :
    ∃ size, s.registerSize = .returns size ∧ size.toNat = 2 ^ (12 + order.toNat) := by
  have horder : ((order.setWidth 8).setWidth 32).toNat = order.toNat := by
    rw [BitVec.toNat_setWidth_of_le (by decide), BitVec.toNat_setWidth_of_le (by decide)]
  have hlt := order.isLt
  have hadd : (12#32).toNat + ((order.setWidth 8).setWidth 32).toNat < 2 ^ 32 := by
    rw [horder, BitVec.toNat_ofNat]
    omega
  have hsum : (12#32 + (order.setWidth 8).setWidth 32).toNat = 12 + order.toNat := by
    rw [BitVec.toNat_add_of_lt hadd, horder]
    rfl
  refine ⟨1#64 <<< (12 + order.toNat), ?_, Word.toNat_one_shift (by omega)⟩
  rw [registerSize, h, Exec.add_of_lt hadd, Exec.returns_bind, hsum, Exec.shl_of_lt (by omega)]

/-- A name ends before its first zero. -/
theorem Andd.objectName_eq {front name : List U8} (hfront : front.length = 10) (hname : 0#8 ∉ name) :
    Andd.objectName ⟨front ++ (name ++ [0#8])⟩ = .returns name := by
  have hbody : (if 10 ≤ (front ++ (name ++ [0#8])).length then (front ++ (name ++ [0#8])).drop 10 else []) =
      name ++ [0#8] := by
    rw [if_pos (by rw [List.length_append]; omega), List.drop_left' hfront]
  have hstop : (name ++ [0#8]).findIdx? (· == 0#8) = some name.length := by
    have hnone : name.findIdx? (· == 0#8) = none := by
      rw [List.findIdx?_eq_none_iff]
      intro b hb
      exact beq_false_of_ne fun h => hname (h ▸ hb)
    simp [List.findIdx?_append, hnone]
  simp only [objectName, hbody, hstop, Option.getD_some]
  rw [Exec.slice_of_le (Nat.zero_le _) (by rw [List.length_append]; omega)]
  simp

theorem RemapStruct.ofType_unknown {ty : U8} (h : 7#8 ≤ ty) (raw : List U8) : ofType ty raw = unknown ty raw := by
  unfold ofType
  split <;> first | rfl | exact absurd h (by decide)

/-- A structure is written so that it is read. -/
theorem Record.shows {r : Record} (h : r.Valid) : (RemapStruct.ofBytes r.bytes).Shows r := by
  have hlength : ∀ n, 4 + r.fields.length = n → r.fixed.length = n := fun n hn => by
    simp only [fixed, List.length_append, List.length_cons, List.length_nil, length_u16ToLe]
    omega
  cases r with
  | drhd includePciAll order segment registerBase scopes =>
    have horder : ∀ order : BitVec 4, order.setWidth 8 &&& 0x0f#8 = order.setWidth 8 := by decide
    exact ⟨⟨_⟩, rfl, bool_of_flag _, horder order, le16_toLe _ (getRange_left rfl _),
      le64_toLe _ (getRange_left rfl _), Drhd.registerSize_eq (horder order), scopes_shows (hlength 16 rfl) scopes⟩
  | rmrr segment base limit scopes =>
    exact ⟨⟨_⟩, rfl, le16_toLe _ (getRange_left rfl _), le64_toLe _ (getRange_left rfl _),
      le64_toLe _ (getRange_left rfl _), scopes_shows (hlength 24 rfl) scopes⟩
  | atsr allPorts segment scopes =>
    exact ⟨⟨_⟩, rfl, bool_of_flag _, le16_toLe _ (getRange_left rfl _), scopes_shows (hlength 8 rfl) scopes⟩
  | rhsa segment base proximityDomain =>
    exact ⟨⟨_⟩, rfl, le32_toLe _ (getRange_left rfl _), le64_toLe _ (getRange_left rfl _),
      le32_toLe _ (getRange_left rfl _)⟩
  | andd acpiDeviceNumber segment objectName =>
    exact ⟨⟨_⟩, rfl, rfl, le16_toLe _ (getRange_left rfl _),
      Andd.objectName_eq (hlength 10 rfl) (h.objectName _ _ _ rfl)⟩
  | satc atcRequired segment scopes =>
    exact ⟨⟨_⟩, rfl, bool_of_flag _, le16_toLe _ (getRange_left rfl _), scopes_shows (hlength 8 rfl) scopes⟩
  | sidp segment scopes =>
    exact ⟨⟨_⟩, rfl, le16_toLe _ (getRange_left rfl _), scopes_shows (hlength 8 rfl) scopes⟩
  | unknown ty body =>
    exact ⟨(unknown ty body).fixed, RemapStruct.ofType_unknown (h.ty _ _ rfl) _, hlength 4 rfl⟩

/-! ### Tables -/

structure Data where
  revision : U8
  oemId : List U8
  /-- The table's id and revision, and its creator's. -/
  oemTable : List U8
  hostAddressWidth : U8
  intrRemapRequired : Bool
  x2apicOptOut : Bool
  records : List Record
  length_oemId : oemId.length = 6
  length_oemTable : oemTable.length = 20
  width_pos : hostAddressWidth ≠ 0#8
  valid : ∀ r ∈ records, r.Valid
  fits : structsOffset + (records.flatMap Record.bytes).length < 2 ^ 32

namespace Data

def flags (d : Data) : U8 := boolAs 8 d.intrRemapRequired ||| boolAs 8 d.x2apicOptOut <<< 1

/-- The header from the OEM id on; one less than the width is stored. -/
def header (d : Data) : List U8 :=
  d.oemId ++ d.oemTable ++ [d.hostAddressWidth - 1#8, d.flags] ++ List.replicate 10 0#8

def bytes (d : Data) : List U8 := sealed dmarSignature d.revision (d.header ++ d.records.flatMap Record.bytes)

end Data

/-- The table gives back the data, and each iterator ends there. -/
structure DmarTable.Shows (t : DmarTable) (d : Data) : Prop where
  signature : t.signature = .returns dmarSignature
  revision : t.revision = .returns d.revision
  oemId : t.oemId = .returns d.oemId
  hostAddressWidth : t.hostAddressWidth = .returns d.hostAddressWidth
  intrRemapRequired : t.intrRemapRequired = .returns d.intrRemapRequired
  x2apicOptOut : t.x2apicOptOut = .returns d.x2apicOptOut
  structs : ∃ it structs, t.structs = .returns it ∧ Yields StructIter.next it structs ∧
    List.Forall₂ RemapStruct.Shows structs d.records ∧ t.drhdUnits = .returns it ∧
    Yields nextDrhd it (structs.filterMap RemapStruct.asDrhd)

namespace Data
variable (d : Data)

theorem length_header : d.header.length = 38 := by
  simp [header, d.length_oemId, d.length_oemTable]

theorem header_offset : 10 + d.header.length = kind.offset := congrArg (10 + ·) d.length_header

theorem accepted : kind.Accepted d.bytes ⟨d.bytes⟩ := sealed_accepted d.revision kind rfl d.header_offset _ d.fits

/-- The first ten bytes of a table. -/
def start : List U8 :=
  front dmarSignature d.revision (d.header ++ d.records.flatMap Record.bytes) ++
    [balance dmarSignature d.revision (d.header ++ d.records.flatMap Record.bytes)]

theorem bytes_eq : d.bytes = d.start ++ (d.oemId ++ (d.oemTable ++ (d.hostAddressWidth - 1#8) :: d.flags ::
    (List.replicate 10 0#8 ++ d.records.flatMap Record.bytes))) := by
  simp only [bytes, sealed, header, start, List.append_assoc, List.cons_append, List.nil_append]

theorem drop_bytes : d.bytes.drop structsOffset = d.records.flatMap Record.bytes :=
  drop_sealed d.revision kind rfl d.header_offset _

/-- The fields of one byte, and the bytes before them. -/
theorem index_bytes : Exec.index d.bytes 36 = .returns (d.hostAddressWidth - 1#8) ∧
    Exec.index d.bytes 37 = .returns d.flags := by
  have hlength : (d.start ++ d.oemId ++ d.oemTable).length = 36 := by
    rw [List.length_append, List.length_append, d.length_oemId, d.length_oemTable]
    rfl
  have hbytes : d.bytes = (d.start ++ d.oemId ++ d.oemTable) ++ (d.hostAddressWidth - 1#8) :: d.flags ::
      (List.replicate 10 0#8 ++ d.records.flatMap Record.bytes) := by
    rw [d.bytes_eq, List.append_assoc, List.append_assoc]
  have hnext := hbytes.trans (List.append_cons _ (d.hostAddressWidth - 1#8) _)
  constructor
  · rw [hbytes]
    exact Exec.index_append _ _ hlength
  · rw [hnext]
    exact Exec.index_append _ _ (by rw [List.length_append, hlength]; rfl)

theorem shows : DmarTable.Shows ⟨d.bytes⟩ d where
  signature := rfl
  revision := rfl
  oemId := by
    have hslice : Exec.slice d.bytes 10 16 = .returns d.oemId := by
      rw [d.bytes_eq]
      exact Exec.slice_append d.start d.oemId _ rfl (by rw [d.length_oemId])
    rw [DmarTable.oemId, hslice, Exec.returns_bind]
    exact Exec.tryInto_of_eq d.length_oemId
  hostAddressWidth := by
    have hwidth : ∀ w : U8, w ≠ 0#8 → (w - 1#8).toNat + (1#8).toNat < 2 ^ 8 := by decide
    rw [DmarTable.hostAddressWidth, d.index_bytes.1, Exec.returns_bind, Exec.add_of_lt (hwidth _ d.width_pos),
      BitVec.sub_add_cancel]
  intrRemapRequired := by
    rw [DmarTable.intrRemapRequired, DmarTable.flagsRaw, d.index_bytes.2, Exec.returns_bind, flags]
    cases d.intrRemapRequired <;> cases d.x2apicOptOut <;> rfl
  x2apicOptOut := by
    rw [DmarTable.x2apicOptOut, DmarTable.flagsRaw, d.index_bytes.2, Exec.returns_bind, flags]
    cases d.intrRemapRequired <;> cases d.x2apicOptOut <;> rfl
  structs := by
    have hstructs := DmarTable.structs_eq d.accepted
    rw [d.drop_bytes] at hstructs
    have hyields : Yields StructIter.next ⟨d.records.flatMap Record.bytes⟩
        ((d.records.map Record.bytes).map RemapStruct.ofBytes) := by
      rw [List.flatMap_def]
      exact structs_cuts.yields
        (Framing.tiles_whole (List.forall_mem_map.mpr fun r hr => Record.whole (d.valid r hr).size))
    refine ⟨_, _, hstructs, hyields, ?_, hstructs, filterMap_yields hyields⟩
    rw [List.map_map, List.forall₂_map_left_iff, List.forall₂_same]
    exact fun r hr => Record.shows (d.valid r hr)

end Data

/-- The data of the table in the module's documentation. -/
def docData : Data where
  revision := 1#8
  oemId := [0x4f#8, 0x45#8, 0x4d#8, 0x20#8, 0x20#8, 0x20#8]
  oemTable := [0x54#8, 0x42#8, 0x4c#8, 0x20#8, 0x20#8, 0x20#8, 0x20#8, 0x20#8] ++ List.replicate 12 0#8
  hostAddressWidth := 52#8
  intrRemapRequired := false
  x2apicOptOut := false
  records := [.drhd false 1#4 0#16 0xfed90000#64 []]
  length_oemId := rfl
  length_oemTable := rfl
  width_pos := by decide
  valid := List.forall_mem_singleton.mpr ⟨by decide, fun _ _ _ h => (by cases h), fun _ _ h => (by cases h)⟩
  fits := by decide

example : docData.bytes = docTable := by decide

end Iommu.Intel.Dmar
