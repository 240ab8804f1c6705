import Iommu.Amd.IvrsTiling

/-! The accessors of hardware and memory definitions.

Blocks are admitted from four bytes on. Most accessors read with `get` and have a
default; `iommu_id` and both `segment`s index, and a block too short for them makes
them panic. Every accessor returns exactly when the block has the seven, or six,
bytes that are indexed (`accessors_return_iff`). -/
namespace Iommu.Amd.Ivrs
open Lib Acpi

/-! ### Hardware definitions -/

/-- Every accessor returns, and the device entries are iterated to their end. Of
`device_range` there is nothing to say: it reads with `get` alone. -/
structure Ivhd.Safe (b : Ivhd) : Prop where
  entryType : b.entryType.Returns
  flags : b.flags.Returns
  iommuId : b.iommuId.Returns
  segment : b.segment.Returns
  baseAddress : b.baseAddress.Returns
  capability : b.capability.Returns
  extendedFeatures : b.extendedFeatures.Returns
  devices : ∃ it, b.devices = .returns it ∧ ∃ entries, Yields DeviceEntryIter.next it entries

theorem Ivhd.entryType_returns {b : Ivhd} (h : 4 ≤ b.raw.length) : b.entryType.Returns :=
  .bind (Exec.returns_index_iff.mpr (by omega)) fun ty => ⟨EntryType.fromByte ty, rfl⟩

theorem Ivhd.baseAddress_returns (b : Ivhd) : b.baseAddress.Returns := by
  rw [baseAddress]
  cases hbytes : getRange b.raw 7 15 with
  | none => exact ⟨0#64, rfl⟩
  | some bytes => exact u64FromLe_returns (length_of_getRange hbytes)

theorem Ivhd.dwordAt_returns (b : Ivhd) (off : Nat) : (b.dwordAt off).Returns := by
  rw [dwordAt]
  cases hbytes : getRange b.raw off (off + 4) with
  | none => exact ⟨none, rfl⟩
  | some bytes =>
    have hlen : bytes.length = 4 := length_of_getRange_add hbytes
    exact .bind (u32FromLe_returns hlen) fun value => ⟨some value, rfl⟩

theorem Ivhd.extendedFeatures_returns {b : Ivhd} (h : 4 ≤ b.raw.length) : b.extendedFeatures.Returns := by
  refine .bind (entryType_returns h) fun ty => ?_
  cases ty with
  | ivhdType11 => exact b.dwordAt_returns 21
  | ivhdType40 => exact b.dwordAt_returns 21
  | ivhdType10 | ivmd | reserved => exact ⟨none, rfl⟩

theorem DeviceEntryIter.yields (it : DeviceEntryIter) : ∃ entries, Yields DeviceEntryIter.next it entries := by
  obtain ⟨frames, tail, htiles⟩ := deviceFraming.exists_tiles it.bytes
  exact ⟨_, devices_cuts.yields htiles⟩

theorem Ivhd.devices_returns {b : Ivhd} (h : 4 ≤ b.raw.length) :
    ∃ it, b.devices = .returns it ∧ ∃ entries, Yields DeviceEntryIter.next it entries := by
  obtain ⟨ty, hty⟩ := entryType_returns h
  rw [devices, hty, Exec.returns_bind]
  exact ⟨_, rfl, DeviceEntryIter.yields _⟩

/-- The two bytes of a `segment` that are indexed. -/
theorem segment_returns_iff (raw : List U8) (lo : Nat) :
    (do let a ← Exec.index raw lo; let b ← Exec.index raw (lo + 1); return u16FromLe a b : Exec U16).Returns ↔
      lo + 2 ≤ raw.length := by
  constructor
  · intro h
    obtain ⟨a, -, hb⟩ := Exec.returns_bind_iff.mp h
    obtain ⟨b, hb, -⟩ := Exec.returns_bind_iff.mp hb
    exact Exec.returns_index_iff.mp ⟨b, hb⟩
  · intro h
    exact .bind (Exec.returns_index_iff.mpr (by omega)) fun a =>
      .bind (Exec.returns_index_iff.mpr (by omega)) fun b => ⟨u16FromLe a b, rfl⟩

theorem Ivhd.safe_iff {b : Ivhd} (h : 4 ≤ b.raw.length) : b.Safe ↔ 7 ≤ b.raw.length := by
  constructor
  · intro hsafe
    exact (segment_returns_iff b.raw 5).mp hsafe.segment
  · intro hseven
    exact {
      entryType := entryType_returns h
      flags := Exec.returns_index_iff.mpr (by omega)
      iommuId := Exec.returns_index_iff.mpr (by omega)
      segment := (segment_returns_iff b.raw 5).mpr hseven
      baseAddress := b.baseAddress_returns
      capability := b.dwordAt_returns 17
      extendedFeatures := extendedFeatures_returns h
      devices := devices_returns h }

/-! ### Memory definitions -/

/-- Every accessor returns. -/
structure Ivmd.Safe (b : Ivmd) : Prop where
  flags : b.flags.Returns
  segment : b.segment.Returns
  base : b.base.Returns
  length : b.length.Returns

/-- The default has the size of the array. -/
theorem Ivmd.qwordAt_returns (b : Ivmd) (lo : Nat) : (b.qwordAt lo (lo + 8)).Returns := by
  have hlen : ((getRange b.raw lo (lo + 8)).getD (List.replicate 8 0#8)).length = 8 := by
    cases hbytes : getRange b.raw lo (lo + 8) with
    | none => rfl
    | some bytes => exact length_of_getRange_add hbytes
  rw [qwordAt, Exec.copyFromSlice_of_eq hlen, Exec.returns_bind]
  exact u64FromLe_returns hlen

theorem Ivmd.safe_iff {b : Ivmd} : b.Safe ↔ 6 ≤ b.raw.length := by
  constructor
  · intro hsafe
    exact (segment_returns_iff b.raw 4).mp hsafe.segment
  · intro hsix
    exact {
      flags := Exec.returns_index_iff.mpr (by omega)
      segment := (segment_returns_iff b.raw 4).mpr hsix
      base := b.qwordAt_returns 8
      length := b.qwordAt_returns 16 }

/-! ### The table -/

/-- Every accessor of the view that a block has returns. -/
def Block.Safe : Block → Prop
  | ivhd b => b.Safe
  | ivmd b => b.Safe
  | unknown _ _ => True

/-- A block has the bytes that its accessors index. -/
def Block.HoldsIndexed : Block → Prop
  | ivhd b => 7 ≤ b.raw.length
  | ivmd b => 6 ≤ b.raw.length
  | unknown _ _ => True

theorem Block.safe_iff {b : Block} (h : b.WellFormed) : b.Safe ↔ b.HoldsIndexed := by
  cases b with
  | ivhd b => exact Ivhd.safe_iff h.four_le
  | ivmd b => exact Ivmd.safe_iff
  | unknown => exact Iff.rfl

/-- The blocks that an accepted table yields are well formed. -/
theorem wellFormed_of_yields {raw : List U8} {t : IvrsTable} (h : IvrsTable.new raw = .returns (.ok t))
    {it : BlockIter} {blocks : List Block} (hit : t.blocks = .returns it)
    (hyields : Yields BlockIter.next it blocks) : ∀ b ∈ blocks, b.WellFormed := by
  obtain ⟨frames, tail, htiles⟩ := blockFraming.exists_tiles (t.raw.drop blocksOffset)
  cases hit.symm.trans (IvrsTable.blocks_eq (IvrsTable.accepted h))
  rw [yields_unique hyields (blocks_cuts.yields htiles)]
  exact List.forall_mem_map.mpr fun f hf => Block.wellFormed_ofBytes (htiles.whole f hf)

/-- **The accessors of a yielded block return** exactly when it holds what they index. -/
theorem accessors_return_iff (raw : List U8) (t : IvrsTable) (it : BlockIter) (blocks : List Block)
    (h : IvrsTable.new raw = .returns (.ok t)) (hit : t.blocks = .returns it)
    (hyields : Yields BlockIter.next it blocks) : ∀ b ∈ blocks, (b.Safe ↔ b.HoldsIndexed) :=
  fun b hb => Block.safe_iff (wellFormed_of_yields h hit hyields b hb)

theorem docTable_safe : (Block.ivhd ⟨docTable.drop 44⟩).Safe := by
  have hseven : 7 ≤ (docTable.drop 44).length := by decide
  exact (accessors_return_iff docTable ⟨docTable⟩ _ _ docTable_new rfl docTable_yields _
    List.mem_cons_self).mpr hseven

/-- A table with a hardware and a memory definition of four bytes each. -/
def shortTable : List U8 :=
  ((docTable.take 44).set 4 52#8).set 9 0x59#8 ++ [0x10#8, 0#8, 4#8, 0#8, 0x20#8, 0#8, 4#8, 0#8]

set_option maxRecDepth 2048 in
theorem shortTable_new : IvrsTable.new shortTable = .returns (.ok ⟨shortTable⟩) := rfl

theorem shortTable_yields : Yields BlockIter.next ⟨shortTable.drop 44⟩
    [.ivhd ⟨[0x10#8, 0#8, 4#8, 0#8]⟩, .ivmd ⟨[0x20#8, 0#8, 4#8, 0#8]⟩] := by
  have hwhole : ∀ f ∈ [[0x10#8, 0#8, 4#8, 0#8], [0x20#8, 0#8, 4#8, 0#8]], blockFraming.Whole f :=
    List.forall_mem_cons.mpr ⟨⟨by decide, rfl⟩, List.forall_mem_singleton.mpr ⟨by decide, rfl⟩⟩
  exact blocks_cuts.yields (Framing.tiles_whole hwhole)

/-- It is accepted and both blocks are yielded, and their identifier and segments
are read past their ends. -/
theorem shortTable_panics : IvrsTable.new shortTable = .returns (.ok ⟨shortTable⟩) ∧
    ∃ it h m, IvrsTable.blocks ⟨shortTable⟩ = .returns it ∧
      Yields BlockIter.next it [.ivhd h, .ivmd m] ∧ ¬h.Safe ∧ ¬m.Safe ∧
      h.iommuId = .panics .bounds ∧ h.segment = .panics .bounds ∧ m.segment = .panics .bounds := by
  refine ⟨shortTable_new, _, ⟨[0x10#8, 0#8, 4#8, 0#8]⟩, ⟨[0x20#8, 0#8, 4#8, 0#8]⟩, rfl, shortTable_yields,
    ?_, ?_, rfl, rfl, rfl⟩
  · rw [Ivhd.safe_iff (by decide)]
    decide
  · rw [Ivmd.safe_iff]
    decide

end Iommu.Amd.Ivrs
