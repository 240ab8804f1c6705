import Iommu.Intel.DmarTiling
import Iommu.Amd.IvrsTiling

/-! Structures and blocks that overrun their table.

Both errors document that `BadLength` is also for a structure that overruns its
table, but no path reports one: a table is accepted by its header alone, and its
iterator stops where a length does not fit. An accepted table is consumed to its
last byte exactly when the bytes after its header are whole records
(`consumed_iff_framed`). -/
namespace Iommu
open Lib Acpi

namespace Intel.Dmar

/-- The structures reach the end of the table. -/
def DmarTable.Consumed (t : DmarTable) : Prop :=
  ∃ it, t.structs = .returns it ∧ ∃ items, Yields StructIter.next it items ∧
    items.flatMap RemapStruct.raw = t.raw.drop structsOffset

theorem DmarTable.consumed_iff {raw : List U8} {t : DmarTable}
    (h : DmarTable.new raw = .returns (.ok t)) :
    t.Consumed ↔ structFraming.Framed ((raw.take (headerLen raw)).drop structsOffset) := by
  have haccepted := DmarTable.accepted h
  rw [DmarTable.Consumed, DmarTable.structs_eq haccepted]
  simp only [Exec.returns.injEq, exists_eq_left']
  rw [haccepted.view]
  exact structs_cuts.consumes_iff RemapStruct.raw_ofBytes _

end Intel.Dmar

namespace Amd.Ivrs

/-- The blocks reach the end of the table. -/
def IvrsTable.Consumed (t : IvrsTable) : Prop :=
  ∃ it, t.blocks = .returns it ∧ ∃ items, Yields BlockIter.next it items ∧
    items.flatMap Block.raw = t.raw.drop blocksOffset

theorem IvrsTable.consumed_iff {raw : List U8} {t : IvrsTable}
    (h : IvrsTable.new raw = .returns (.ok t)) :
    t.Consumed ↔ blockFraming.Framed ((raw.take (headerLen raw)).drop blocksOffset) := by
  have haccepted := IvrsTable.accepted h
  rw [IvrsTable.Consumed, IvrsTable.blocks_eq haccepted]
  simp only [Exec.returns.injEq, exists_eq_left']
  rw [haccepted.view]
  exact blocks_cuts.consumes_iff Block.raw_ofBytes _

end Amd.Ivrs

open Intel.Dmar Amd.Ivrs

/-- **An accepted table is consumed exactly when its records fit it.** -/
theorem consumed_iff_framed (raw : List U8) :
    (∀ t, DmarTable.new raw = .returns (.ok t) →
      (t.Consumed ↔ structFraming.Framed ((raw.take (headerLen raw)).drop structsOffset))) ∧
    ∀ t, IvrsTable.new raw = .returns (.ok t) →
      (t.Consumed ↔ blockFraming.Framed ((raw.take (headerLen raw)).drop blocksOffset)) :=
  ⟨fun _ h => DmarTable.consumed_iff h, fun _ h => IvrsTable.consumed_iff h⟩

set_option maxRecDepth 2048 in
/-- Both tables of the documentation are consumed. -/
theorem docTables_consumed : DmarTable.Consumed ⟨Intel.Dmar.docTable⟩ ∧
    IvrsTable.Consumed ⟨Amd.Ivrs.docTable⟩ := by
  have hunit : structFraming.Whole (Intel.Dmar.docTable.drop 48) := ⟨by decide, rfl⟩
  have hivhd : blockFraming.Whole (Amd.Ivrs.docTable.drop 44) := ⟨by decide, rfl⟩
  have hdmar : DmarTable.new Intel.Dmar.docTable = .returns (.ok ⟨Intel.Dmar.docTable⟩) := rfl
  exact ⟨((consumed_iff_framed _).1 _ hdmar).mpr ⟨[_], List.forall_mem_singleton.mpr hunit, rfl⟩,
    ((consumed_iff_framed _).2 _ docTable_new).mpr ⟨[_], List.forall_mem_singleton.mpr hivhd, rfl⟩⟩

/-- The DMAR table of the documentation, its unit claiming 32 bytes of the 16 there are. -/
def overrunDmar : List U8 := (Intel.Dmar.docTable.set 50 32#8).set 9 0xad#8

/-- The IVRS table of the documentation, its block claiming 37 bytes of the 21 there are. -/
def overrunIvrs : List U8 := (Amd.Ivrs.docTable.set 46 37#8).set 9 0x62#8

set_option maxRecDepth 2048 in
theorem overrunDmar_new : DmarTable.new overrunDmar = .returns (.ok ⟨overrunDmar⟩) := rfl

set_option maxRecDepth 2048 in
theorem overrunIvrs_new : IvrsTable.new overrunIvrs = .returns (.ok ⟨overrunIvrs⟩) := rfl

/-- Such tables are accepted, and their last bytes are never reached. -/
theorem overrun_accepted :
    (DmarTable.new overrunDmar = .returns (.ok ⟨overrunDmar⟩) ∧ ¬DmarTable.Consumed ⟨overrunDmar⟩) ∧
      IvrsTable.new overrunIvrs = .returns (.ok ⟨overrunIvrs⟩) ∧ ¬IvrsTable.Consumed ⟨overrunIvrs⟩ := by
  refine ⟨⟨overrunDmar_new, ?_⟩, overrunIvrs_new, ?_⟩
  · rw [DmarTable.consumed_iff overrunDmar_new]
    have hstuck : structFraming.Stuck (overrunDmar.drop 48) := .inr (.inr (by decide))
    exact hstuck.not_framed (by decide)
  · rw [IvrsTable.consumed_iff overrunIvrs_new]
    have hstuck : blockFraming.Stuck (overrunIvrs.drop 44) := .inr (.inr (by decide))
    exact hstuck.not_framed (by decide)

end Iommu
