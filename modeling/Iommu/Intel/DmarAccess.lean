import Iommu.Intel.DmarTiling
import Iommu.Lib.FilterMap

/-! The accessors of a DMAR table.

The fields of a structure are read with a default, so their accessors return for
any bytes at all, and the header is as long as an accepted table must be. What is
left is the host address width, an addition in eight bits: every accessor of an
accepted table returns exactly when byte 36 is not 255 (`table_safe_iff`). -/
namespace Iommu.Intel.Dmar
open Lib Acpi

/-! ### Fields with a default -/

theorem le16_eq (raw : List U8) (off : Nat) : le16 raw off = readOr raw off 2 (fun b => do
    let lo ← Exec.index b 0
    let hi ← Exec.index b 1
    return u16FromLe lo hi) (.returns 0#16) := by
  rw [le16, readOr]
  cases getRange raw off (off + 2) <;> rfl

theorem le32_eq (raw : List U8) (off : Nat) : le32 raw off = readOr raw off 4 u32FromLe (.returns 0#32) := by
  rw [le32, readOr]
  cases getRange raw off (off + 4) <;> rfl

theorem le64_eq (raw : List U8) (off : Nat) : le64 raw off = readOr raw off 8 u64FromLe (.returns 0#64) := by
  rw [le64, readOr]
  cases getRange raw off (off + 8) <;> rfl

theorem le16_returns (raw : List U8) (off : Nat) : (le16 raw off).Returns := by
  rw [le16_eq]
  exact readOr_returns ⟨0#16, rfl⟩ (fun field hlen => .bind (Exec.returns_index_iff.mpr (by omega)) fun lo =>
    .bind (Exec.returns_index_iff.mpr (by omega)) fun hi => ⟨u16FromLe lo hi, rfl⟩) raw off

theorem le32_returns (raw : List U8) (off : Nat) : (le32 raw off).Returns := by
  rw [le32_eq]
  exact readOr_returns ⟨0#32, rfl⟩ (fun _ hlen => u32FromLe_returns hlen) raw off

theorem le64_returns (raw : List U8) (off : Nat) : (le64 raw off).Returns := by
  rw [le64_eq]
  exact readOr_returns ⟨0#64, rfl⟩ (fun _ hlen => u64FromLe_returns hlen) raw off

/-! ### Structures -/

/-- The order has four bits, so the shift stays within its word. -/
theorem Drhd.registerSize_returns (s : Drhd) : s.registerSize.Returns := by
  have horder : s.registerSizeOrder.toNat ≤ 15 := by
    rw [registerSizeOrder, BitVec.toNat_and]
    exact Nat.and_le_right
  have hwide : (s.registerSizeOrder.setWidth 32).toNat = s.registerSizeOrder.toNat :=
    BitVec.toNat_setWidth_of_le (by decide)
  have hsum : (12#32).toNat + (s.registerSizeOrder.setWidth 32).toNat = 12 + s.registerSizeOrder.toNat := by
    rw [hwide]
    rfl
  have hadd : (12#32).toNat + (s.registerSizeOrder.setWidth 32).toNat < 2 ^ 32 := by omega
  have hshift : (12#32 + s.registerSizeOrder.setWidth 32).toNat < 64 := by
    rw [BitVec.toNat_add_of_lt hadd]
    omega
  rw [registerSize, Exec.add_of_lt hadd, Exec.returns_bind, Exec.shl_of_lt hshift]
  exact ⟨_, rfl⟩

/-- The name ends within the bytes it is looked for in. -/
theorem Andd.objectName_returns (s : Andd) : s.objectName.Returns := by
  rw [objectName]
  generalize (if 10 ≤ s.raw.length then s.raw.drop 10 else []) = body
  have hstop : (body.findIdx? (· == 0#8)).getD body.length ≤ body.length := by
    cases hfound : body.findIdx? (· == 0#8) with
    | none => exact Nat.le_refl _
    | some i => exact Nat.le_of_lt (List.findIdx?_eq_some_iff_findIdx_eq.mp hfound).1
  exact ⟨_, Exec.slice_of_le (Nat.zero_le _) hstop⟩

theorem chunksExact2_length (bytes : List U8) : ∀ pair ∈ chunksExact2 bytes, pair.length = 2 := by
  induction bytes using chunksExact2.induct with
  | case1 a b rest ih => exact List.forall_mem_cons.mpr ⟨rfl, ih⟩
  | case2 bytes hshort =>
    intro pair hpair
    rw [chunksExact2.eq_2 bytes hshort] at hpair
    exact absurd hpair List.not_mem_nil

/-- Every accessor of an entry returns, and its path is iterated to its end. -/
structure DeviceScope.Safe (s : DeviceScope) : Prop where
  firstSourceId : s.firstSourceId.Returns
  pathPairs : s.pathPairs.Returns

theorem DeviceScope.safe (s : DeviceScope) : s.Safe where
  firstSourceId := by
    rw [DeviceScope.firstSourceId]
    cases hpair : (chunksExact2 s.path).head? with
    | none => exact ⟨none, rfl⟩
    | some pair =>
      have hlen := chunksExact2_length s.path pair (List.mem_of_head? hpair)
      exact .bind (Exec.returns_index_iff.mpr (by omega)) fun device =>
        .bind (Exec.returns_index_iff.mpr (by omega)) fun function => ⟨_, rfl⟩
  pathPairs := Exec.mapM'_returns fun pair hpair => by
    have hlen := chunksExact2_length s.path pair hpair
    exact .bind (Exec.returns_index_iff.mpr (by omega)) fun device =>
      .bind (Exec.returns_index_iff.mpr (by omega)) fun function => ⟨(device, function), rfl⟩

/-- Every accessor of a field returns. -/
def RemapStruct.FieldsSafe : RemapStruct → Prop
  | drhd s => s.segment.Returns ∧ s.registerBase.Returns ∧ s.registerSize.Returns
  | rmrr s => s.segment.Returns ∧ s.base.Returns ∧ s.limit.Returns
  | atsr s => s.segment.Returns
  | rhsa s => s.segment.Returns ∧ s.base.Returns ∧ s.proximityDomain.Returns
  | andd s => s.segment.Returns ∧ s.objectName.Returns
  | satc s => s.segment.Returns
  | sidp s => s.segment.Returns
  | unknown _ _ => True

theorem RemapStruct.fieldsSafe (s : RemapStruct) : s.FieldsSafe := by
  cases s with
  | drhd s => exact ⟨le16_returns _ _, le64_returns _ _, s.registerSize_returns⟩
  | rmrr s => exact ⟨le16_returns _ _, le64_returns _ _, le64_returns _ _⟩
  | rhsa s => exact ⟨le32_returns _ _, le64_returns _ _, le32_returns _ _⟩
  | andd s => exact ⟨le16_returns _ _, s.objectName_returns⟩
  | atsr s | satc s | sidp s => exact le16_returns _ _
  | unknown => exact trivial

/-- Every accessor of a structure returns, and those of the scopes it has. -/
structure RemapStruct.Safe (s : RemapStruct) : Prop where
  fields : s.FieldsSafe
  scopes : ∀ fixed it, s.scopeList = some (fixed, it) →
    ∃ entries, Yields DeviceScopeIter.next it entries ∧ ∀ e ∈ entries, e.Safe

theorem RemapStruct.safe (s : RemapStruct) : s.Safe where
  fields := s.fieldsSafe
  scopes fixed it h := by
    obtain ⟨entries, _, -, hyields⟩ := s.scopesTile fixed it h
    exact ⟨_, hyields, fun e _ => e.safe⟩

/-! ### The table -/

theorem structs_shrink : Shrinks StructIter.next fun it => it.bytes.length :=
  structs_cuts.shrinks StructIter.bytes (fun _ => rfl) fun _ => rfl

def RemapStruct.asDrhd : RemapStruct → Option Drhd
  | drhd s => some s
  | _ => none

/-- `drhd_units`: the structures, through a filter. -/
def DmarTable.drhdUnits (t : DmarTable) : Exec StructIter := t.structs

/-- A step of the iterator that `drhd_units` returns. -/
def nextDrhd : StructIter → Exec (Option Drhd × StructIter) := filterMapNext RemapStruct.asDrhd structs_shrink

/-- Every accessor of the header returns, those of every structure that is yielded,
and those of every scope that they yield. -/
structure DmarTable.Safe (t : DmarTable) : Prop where
  signature : t.signature.Returns
  revision : t.revision.Returns
  oemId : t.oemId.Returns
  hostAddressWidth : t.hostAddressWidth.Returns
  flagsRaw : t.flagsRaw.Returns
  intrRemapRequired : t.intrRemapRequired.Returns
  x2apicOptOut : t.x2apicOptOut.Returns
  structs : ∃ it, t.structs = .returns it ∧ ∃ items, Yields StructIter.next it items ∧ ∀ s ∈ items, s.Safe
  drhdUnits : ∃ it, t.drhdUnits = .returns it ∧ ∃ units, Yields nextDrhd it units

/-- The width is one byte and one more. -/
theorem DmarTable.hostAddressWidth_returns_iff {t : DmarTable} (h : structsOffset ≤ t.raw.length) :
    t.hostAddressWidth.Returns ↔ t.raw.getD 36 0#8 ≠ 0xff#8 := by
  have hbyte : ∀ b : U8, b.toNat + (1#8).toNat < 2 ^ 8 ↔ b ≠ 0xff#8 := by decide
  rw [hostAddressWidth, Exec.index_eq_getD (Nat.lt_of_lt_of_le (by decide) h) 0#8, Exec.returns_bind,
    Exec.returns_add_iff, hbyte]

theorem DmarTable.flagsRaw_returns {t : DmarTable} (h : structsOffset ≤ t.raw.length) : t.flagsRaw.Returns :=
  Exec.returns_index_iff.mpr (Nat.lt_of_lt_of_le (by decide) h)

/-- The bytes of a header field with a fixed size. -/
theorem headerField_returns {raw : List U8} (lo hi : Nat) (hle : lo ≤ hi) (hhi : hi ≤ raw.length) :
    (do let bytes ← Exec.slice raw lo hi; Exec.tryInto (hi - lo) bytes).Returns := by
  have hlen : ((raw.drop lo).take (hi - lo)).length = hi - lo := by
    rw [List.length_take, List.length_drop]
    omega
  rw [Exec.slice_of_le hle hhi, Exec.returns_bind, Exec.tryInto_of_eq hlen]
  exact ⟨_, rfl⟩

theorem DmarTable.safe_iff {t : DmarTable} (h : structsOffset ≤ t.raw.length)
    (hstructs : t.structs = .returns ⟨t.raw.drop structsOffset⟩) : t.Safe ↔ t.raw.getD 36 0#8 ≠ 0xff#8 := by
  have hlong : 48 ≤ t.raw.length := h
  obtain ⟨frames, tail, htiles⟩ := structFraming.exists_tiles (t.raw.drop structsOffset)
  have hyields := structs_cuts.yields htiles
  rw [← hostAddressWidth_returns_iff h]
  constructor
  · exact Safe.hostAddressWidth
  · intro hwidth
    exact {
      signature := headerField_returns 0 4 (Nat.zero_le 4) (by omega)
      revision := Exec.returns_index_iff.mpr (by omega)
      oemId := headerField_returns 10 16 (by decide) (by omega)
      hostAddressWidth := hwidth
      flagsRaw := flagsRaw_returns h
      intrRemapRequired := .bind (flagsRaw_returns h) fun _ => ⟨_, rfl⟩
      x2apicOptOut := .bind (flagsRaw_returns h) fun _ => ⟨_, rfl⟩
      structs := ⟨_, hstructs, _, hyields, fun s _ => s.safe⟩
      drhdUnits := ⟨_, hstructs, _, filterMap_yields hyields⟩ }

/-- **Every accessor of an accepted table returns** unless its width byte is 255. -/
theorem table_safe_iff (raw : List U8) (t : DmarTable) (h : DmarTable.new raw = .returns (.ok t)) :
    t.Safe ↔ raw.getD 36 0#8 ≠ 0xff#8 := by
  have haccepted := DmarTable.accepted h
  have hlen : structsOffset ≤ t.raw.length := by
    rw [haccepted.view]
    exact haccepted.offset_le_length
  have hbyte : t.raw.getD 36 0#8 = raw.getD 36 0#8 := by
    have hheader : structsOffset ≤ headerLen raw := haccepted.offset_le
    rw [haccepted.view]
    show (raw.take (headerLen raw)).getD 36 0#8 = _
    rw [List.getD_eq_getElem?_getD, List.getD_eq_getElem?_getD,
      List.getElem?_take_of_lt (Nat.lt_of_lt_of_le (by decide) hheader)]
  rw [DmarTable.safe_iff hlen (DmarTable.structs_eq haccepted), hbyte]

set_option maxRecDepth 2048 in
theorem docTable_safe_width : DmarTable.Safe ⟨docTable⟩ :=
  (table_safe_iff docTable ⟨docTable⟩ rfl).mpr (by decide)

/-- The table of the documentation, with a width byte of 255. -/
def wideTable : List U8 := (docTable.set 36 0xff#8).set 9 0xf1#8

set_option maxRecDepth 2048 in
/-- It is accepted, and its host address width overflows. -/
theorem wideTable_overflows : DmarTable.new wideTable = .returns (.ok ⟨wideTable⟩) ∧
    DmarTable.hostAddressWidth ⟨wideTable⟩ = .panics .overflow ∧ ¬DmarTable.Safe ⟨wideTable⟩ := by
  have hwidth : DmarTable.hostAddressWidth ⟨wideTable⟩ = .panics .overflow := rfl
  refine ⟨rfl, hwidth, fun hsafe => ?_⟩
  have hreturns := hsafe.hostAddressWidth
  rw [hwidth] at hreturns
  exact Exec.not_returns_panics _ hreturns

end Iommu.Intel.Dmar
