import Iommu.Amd.Ivrs
import Iommu.Lib.FilterMap
import Iommu.Sealed

/-! How blocks and device entries tile an IVRS table.

Blocks are framed like the structures of a DMAR table, device entries by their first
byte (`deviceFraming`). `ivhd_units` and `ivmd_units` are the block iterator through
a filter, and what they yield, with the blocks of unknown types, are the blocks
(`blocks_tile`). -/
namespace Iommu.Amd.Ivrs
open Lib Acpi

theorem IvrsTable.accepted {raw : List U8} {t : IvrsTable} (h : IvrsTable.new raw = .returns (.ok t)) :
    kind.Accepted raw t := TableKind.accepted h

/-- An accepted table reaches its blocks. -/
theorem IvrsTable.blocks_eq {raw : List U8} {t : IvrsTable} (h : kind.Accepted raw t) :
    t.blocks = .returns ⟨t.raw.drop blocksOffset⟩ := by
  have hlen : blocksOffset ≤ t.raw.length := by
    rw [h.view]
    exact h.offset_le_length
  rw [IvrsTable.blocks, Exec.sliceFrom_of_le hlen, Exec.returns_bind, Exec.pure_eq]

/-! ### Blocks -/

/-- A block has its length where a structure of a DMAR table has it. -/
abbrev blockFraming : Framing U8 := recordFraming

/-- A block as its bytes give it. -/
def Block.ofBytes (raw : List U8) : Block := .ofType (raw.getD 0 0#8) raw

theorem Block.raw_ofType (ty : U8) (raw : List U8) : (Block.ofType ty raw).raw = raw := by
  unfold Block.ofType
  split <;> rfl

theorem Block.raw_ofBytes (raw : List U8) : (Block.ofBytes raw).raw = raw := Block.raw_ofType _ raw

theorem BlockIter.next_stuck (bytes : List U8) (h : blockFraming.Stuck bytes) :
    BlockIter.next ⟨bytes⟩ = .returns (none, ⟨bytes⟩) := by
  by_cases hlen : bytes.length < 4
  · exact if_pos hlen
  · have hcond : recordLen bytes < 4 ∨ recordLen bytes > bytes.length := h.resolve_left hlen
    have hbyte : ∀ i, i < 4 → Exec.index bytes i = .returns (bytes.getD i 0#8) := fun i hi =>
      Exec.index_eq_getD (by omega) 0#8
    simp (disch := decide) only [next, if_neg hlen, hbyte, Exec.returns_bind]
    exact if_pos hcond

theorem BlockIter.next_cut (bytes : List U8) (h : ¬blockFraming.Stuck bytes) :
    BlockIter.next ⟨bytes⟩ =
      .returns (some (.ofBytes (bytes.take (recordLen bytes))), ⟨bytes.drop (recordLen bytes)⟩) := by
  obtain ⟨hlen, hfits⟩ := not_or.mp h
  have hcond : ¬(recordLen bytes < 4 ∨ recordLen bytes > bytes.length) := hfits
  obtain ⟨hge, hle⟩ := not_or.mp hcond
  have hfour : 4 ≤ bytes.length := Nat.not_lt.mp hlen
  have hbyte : ∀ i, i < 4 → Exec.index bytes i = .returns (bytes.getD i 0#8) := fun i hi =>
    Exec.index_eq_getD (by omega) 0#8
  rw [Block.ofBytes, getD_zero_take bytes (by omega)]
  rw [recordLen] at hcond hle ⊢
  simp (disch := decide) only [next, if_neg (Nat.not_lt.mpr hfour), hbyte, Exec.returns_bind, if_neg hcond,
    Exec.splitAt_of_le (Nat.not_lt.mp hle), Exec.pure_eq]

theorem blocks_cuts : blockFraming.Cuts BlockIter.next BlockIter.mk Block.ofBytes :=
  .of_step BlockIter.next_stuck BlockIter.next_cut

theorem blocks_shrink : Shrinks BlockIter.next fun it => it.bytes.length :=
  blocks_cuts.shrinks BlockIter.bytes (fun _ => rfl) fun _ => rfl

/-! ### Device entries -/

/-- The length of an entry, by its type or its length byte. -/
def deviceLen (bytes : List U8) : Nat :=
  if variableType (bytes.getD 0 0#8) then (bytes.getD 1 0#8).toNat else needed (bytes.getD 0 0#8)

def deviceFraming : Framing U8 where
  header := 4
  length := deviceLen
  header_pos := recordFraming.header_pos
  length_append f rest h := by
    rw [deviceLen, deviceLen, List.getD_append f rest _ 0 (by omega), List.getD_append f rest _ 1 (by omega)]

theorem needed_eq (first : U8) : needed first = 4 ∨ needed first = 8 := by
  unfold needed
  split
  case isTrue => exact .inl rfl
  split
  case isTrue => exact .inr rfl
  case isFalse => exact .inl rfl

/-- An entry as its bytes give it. -/
def DeviceEntry.ofBytes (raw : List U8) : DeviceEntry :=
  let first := raw.getD 0 0#8
  let ty := DeviceType.fromByte first
  if variableType first then .variableLen ty raw
  else if needed first = 4 then .short ty (raw.getD 2 0#8) (raw.getD 3 0#8)
  else .long ty (raw.getD 2 0#8) (raw.getD 3 0#8) (u16FromLe (raw.getD 6 0#8) (raw.getD 7 0#8))

theorem DeviceEntry.readFixed_eq {raw : List U8} (hfixed : ¬variableType (raw.getD 0 0#8) = true)
    (hlen : raw.length = needed (raw.getD 0 0#8)) :
    DeviceEntry.readFixed (raw.getD 0 0#8) raw = .returns (.ofBytes raw) := by
  have hbyte : ∀ i, i < raw.length → Exec.index raw i = .returns (raw.getD i 0#8) := fun i hi =>
    Exec.index_eq_getD hi 0#8
  rw [readFixed, ofBytes, if_neg hfixed]
  rcases needed_eq (raw.getD 0 0#8) with hfour | height
  · rw [hfour] at hlen ⊢
    rw [hbyte 2 (by omega), hbyte 3 (by omega), if_pos rfl]
    rfl
  · rw [height] at hlen ⊢
    rw [hbyte 2 (by omega), hbyte 3 (by omega), hbyte 6 (by omega), hbyte 7 (by omega), if_neg (by decide)]
    rfl

theorem DeviceEntryIter.next_stuck (bytes : List U8) (h : deviceFraming.Stuck bytes) :
    DeviceEntryIter.next ⟨bytes⟩ = .returns (none, ⟨bytes⟩) := by
  have hstuck : bytes.length < 4 ∨ deviceLen bytes < 4 ∨ bytes.length < deviceLen bytes := h
  cases bytes with
  | nil => rfl
  | cons first rest =>
    by_cases hvariable : variableType first = true
    · cases rest with
      | nil => simp only [next, List.head?_cons, hvariable, if_true]; rfl
      | cons lenByte rest =>
        have hlen : deviceLen (first :: lenByte :: rest) = lenByte.toNat := if_pos hvariable
        have hcond : lenByte.toNat < 4 ∨ lenByte.toNat > (first :: lenByte :: rest).length := by omega
        simp only [next, List.head?_cons, hvariable, if_true]
        exact if_pos hcond
    · have hlen : deviceLen (first :: rest) = needed first := if_neg hvariable
      have hshort : (first :: rest).length < needed first := by
        have := needed_eq first
        omega
      simp only [next, List.head?_cons, if_neg hvariable, if_pos hshort, Exec.pure_eq]

theorem DeviceEntryIter.next_cut (bytes : List U8) (h : ¬deviceFraming.Stuck bytes) :
    DeviceEntryIter.next ⟨bytes⟩ =
      .returns (some (.ofBytes (bytes.take (deviceLen bytes))), ⟨bytes.drop (deviceLen bytes)⟩) := by
  have hfits : ¬(bytes.length < 4 ∨ deviceLen bytes < 4 ∨ bytes.length < deviceLen bytes) := h
  have hle : deviceLen bytes ≤ bytes.length := by omega
  have hfirst : (bytes.take (deviceLen bytes)).getD 0 0#8 = bytes.getD 0 0#8 := getD_zero_take bytes (by omega)
  have hhead : bytes.head? = some (bytes.getD 0 0#8) := by
    cases bytes with
    | nil => exact absurd (.inl (by decide)) hfits
    | cons => rfl
  have hsplit := Exec.splitAt_of_le hle
  by_cases hvariable : variableType (bytes.getD 0 0#8) = true
  · have hlen : deviceLen bytes = (bytes.getD 1 0#8).toNat := if_pos hvariable
    have hsecond : bytes[1]? = some (bytes.getD 1 0#8) := by
      rw [List.getD_eq_getElem?_getD, List.getElem?_eq_getElem (by omega), Option.getD_some]
    have hcond : ¬((bytes.getD 1 0#8).toNat < 4 ∨ (bytes.getD 1 0#8).toNat > bytes.length) := by omega
    have hentry : DeviceEntry.ofBytes (bytes.take (deviceLen bytes)) =
        .variableLen (.fromByte (bytes.getD 0 0#8)) (bytes.take (deviceLen bytes)) := by
      rw [DeviceEntry.ofBytes, hfirst]
      exact if_pos hvariable
    rw [hentry]
    rw [hlen] at hsplit ⊢
    simp only [next, hhead, hvariable, if_true, hsecond, if_neg hcond, hsplit, Exec.returns_bind, Exec.pure_eq]
  · have hlen : deviceLen bytes = needed (bytes.getD 0 0#8) := if_neg hvariable
    have hread : DeviceEntry.readFixed (bytes.getD 0 0#8) (bytes.take (deviceLen bytes)) =
        .returns (.ofBytes (bytes.take (deviceLen bytes))) := by
      have htaken : (bytes.take (deviceLen bytes)).length = needed (bytes.getD 0 0#8) := by
        rw [List.length_take, Nat.min_eq_left hle, hlen]
      rw [← hfirst] at hvariable htaken ⊢
      exact DeviceEntry.readFixed_eq hvariable htaken
    rw [hlen] at hle hsplit hread ⊢
    simp only [next, hhead, if_neg hvariable, if_neg (Nat.not_lt.mpr hle), hsplit, Exec.returns_bind, hread,
      Exec.pure_eq]

theorem devices_cuts : deviceFraming.Cuts DeviceEntryIter.next DeviceEntryIter.mk DeviceEntry.ofBytes :=
  .of_step DeviceEntryIter.next_stuck DeviceEntryIter.next_cut

/-! ### Units -/

def Block.asIvhd : Block → Option Ivhd
  | ivhd b => some b
  | _ => none

def Block.asIvmd : Block → Option Ivmd
  | ivmd b => some b
  | _ => none

/-- `ivhd_units`: the blocks, through a filter. -/
def IvrsTable.ivhdUnits (t : IvrsTable) : Exec BlockIter := t.blocks

/-- A step of the iterator that `ivhd_units` returns. -/
def nextIvhd : BlockIter → Exec (Option Ivhd × BlockIter) := filterMapNext Block.asIvhd blocks_shrink

/-- `ivmd_units`: the blocks, through a filter. -/
def IvrsTable.ivmdUnits (t : IvrsTable) : Exec BlockIter := t.blocks

/-- A step of the iterator that `ivmd_units` returns. -/
def nextIvmd : BlockIter → Exec (Option Ivmd × BlockIter) := filterMapNext Block.asIvmd blocks_shrink

def Block.isUnknown : Block → Bool
  | unknown _ _ => true
  | _ => false

/-- Units and unknown blocks are the blocks, each once and in order. -/
structure Classified (blocks : List Block) (hs : List Ivhd) (ms : List Ivmd) : Prop where
  ivhd_in_order : (hs.map Block.ivhd).Sublist blocks
  ivmd_in_order : (ms.map Block.ivmd).Sublist blocks
  each_once : (hs.map Block.ivhd ++ ms.map Block.ivmd ++ blocks.filter Block.isUnknown).Perm blocks

theorem classified_of_filter (blocks : List Block) :
    Classified blocks (blocks.filterMap Block.asIvhd) (blocks.filterMap Block.asIvmd) := by
  induction blocks with
  | nil => exact ⟨.slnil, .slnil, .nil⟩
  | cons b blocks ih =>
    obtain ⟨hivhd, hivmd, hperm⟩ := ih
    cases b with
    | ivhd b => exact ⟨hivhd.cons_cons _, hivmd.cons _, hperm.cons _⟩
    | ivmd b =>
      refine ⟨hivhd.cons _, hivmd.cons_cons _, ?_⟩
      exact (List.perm_middle.append_right _).trans (hperm.cons _)
    | unknown ty raw =>
      refine ⟨hivhd.cons _, hivmd.cons _, ?_⟩
      exact List.perm_middle.trans (hperm.cons _)

/-! ### The table -/

/-- A block that carries its own length and is the variant of its first byte. -/
structure Block.WellFormed (b : Block) : Prop where
  four_le : 4 ≤ b.raw.length
  length_field : recordLen b.raw = b.raw.length
  variant : b = .ofType (b.raw.getD 0 0#8) b.raw

theorem Block.wellFormed_ofBytes {f : List U8} (h : blockFraming.Whole f) : (Block.ofBytes f).WellFormed := by
  have hraw := Block.raw_ofBytes f
  exact {
    four_le := by
      rw [hraw]
      exact h.header_le
    length_field := by
      rw [hraw]
      exact h.length_eq
    variant := by
      rw [hraw]
      rfl }

/-- **Blocks tile an accepted table**, and units and unknown blocks are the blocks. -/
theorem blocks_tile (raw : List U8) (t : IvrsTable) (h : IvrsTable.new raw = .returns (.ok t)) :
    ∃ it blocks hs ms tail, t.blocks = .returns it ∧ Yields BlockIter.next it blocks ∧
      blocks.flatMap Block.raw ++ tail = t.raw.drop blocksOffset ∧ (∀ b ∈ blocks, b.WellFormed) ∧
      blockFraming.Stuck tail ∧ t.ivhdUnits = .returns it ∧ Yields nextIvhd it hs ∧
      t.ivmdUnits = .returns it ∧ Yields nextIvmd it ms ∧ Classified blocks hs ms := by
  obtain ⟨frames, tail, htiles⟩ := blockFraming.exists_tiles (t.raw.drop blocksOffset)
  have hblocks := IvrsTable.blocks_eq (IvrsTable.accepted h)
  have hyields := blocks_cuts.yields htiles
  refine ⟨_, frames.map Block.ofBytes, _, _, tail, hblocks, hyields, ?_, ?_, htiles.stuck, hblocks,
    filterMap_yields hyields, hblocks, filterMap_yields hyields, classified_of_filter _⟩
  · rw [Framing.flatMap_items Block.raw_ofBytes, htiles.bytes]
  · exact List.forall_mem_map.mpr fun f hf => Block.wellFormed_ofBytes (htiles.whole f hf)

/-- A hardware definition without devices. -/
def mixedUnit : Ivhd :=
  ⟨[0x10#8, 0#8, 24#8, 0#8, 0#8, 0#8, 0#8, 0x00#8, 0x00#8, 0xd8#8, 0xfe#8] ++ List.replicate 13 0#8⟩

/-- A block of a type that the module does not know. -/
def mixedUnknown : List U8 := [0x30#8, 0#8, 4#8, 0#8]

/-- A range of memory. -/
def mixedRange : Ivmd := ⟨[0x20#8, 8#8, 24#8, 0#8] ++ List.replicate 20 0#8⟩

def mixedBlocks : List Block := [.ivhd mixedUnit, .unknown 0x30#8 mixedUnknown, .ivmd mixedRange]

/-- A table of the three. -/
def mixedTable : List U8 := sealed ivrsSignature 2#8 (List.replicate 34 0#8 ++ mixedBlocks.flatMap Block.raw)

theorem mixedTable_units : ∃ it, IvrsTable.blocks ⟨mixedTable⟩ = .returns it ∧ Yields BlockIter.next it mixedBlocks ∧
    IvrsTable.ivhdUnits ⟨mixedTable⟩ = .returns it ∧ Yields nextIvhd it [mixedUnit] ∧
    IvrsTable.ivmdUnits ⟨mixedTable⟩ = .returns it ∧ Yields nextIvmd it [mixedRange] ∧
    Classified mixedBlocks [mixedUnit] [mixedRange] := by
  have hnew : IvrsTable.new mixedTable = .returns (.ok ⟨mixedTable⟩) :=
    (sealed_accepted 2#8 kind rfl rfl (mixedBlocks.flatMap Block.raw) (by decide)).accept
  have hbytes : mixedTable.drop blocksOffset = mixedBlocks.flatMap Block.raw := drop_sealed 2#8 kind rfl rfl _
  have hwhole : ∀ f ∈ mixedBlocks.map Block.raw, blockFraming.Whole f :=
    List.forall_mem_cons.mpr ⟨⟨by decide, rfl⟩, List.forall_mem_cons.mpr ⟨⟨by decide, rfl⟩,
      List.forall_mem_singleton.mpr ⟨by decide, rfl⟩⟩⟩
  have hmixed : Yields BlockIter.next ⟨mixedTable.drop blocksOffset⟩ mixedBlocks := by
    rw [hbytes, List.flatMap_def]
    exact blocks_cuts.yields (Framing.tiles_whole hwhole)
  obtain ⟨it, blocks, hs, ms, tail, hblocks, hyields, -, -, -, hivhd, hunits, hivmd, hranges, hclassified⟩ :=
    blocks_tile mixedTable ⟨mixedTable⟩ hnew
  obtain rfl : BlockIter.mk (mixedTable.drop blocksOffset) = it :=
    Exec.returns.inj ((IvrsTable.blocks_eq (IvrsTable.accepted hnew)).symm.trans hblocks)
  obtain rfl : blocks = mixedBlocks := yields_unique hyields hmixed
  obtain rfl : hs = [mixedUnit] := yields_unique hunits (filterMap_yields hmixed)
  obtain rfl : ms = [mixedRange] := yields_unique hranges (filterMap_yields hmixed)
  exact ⟨_, hblocks, hyields, hivhd, hunits, hivmd, hranges, hclassified⟩

/-- The table of the module's documentation, with one hardware definition. -/
def docTable : List U8 :=
  [0x49#8, 0x56#8, 0x52#8, 0x53#8, 65#8, 0#8, 0#8, 0#8, 1#8, 0x72#8, 0x41#8, 0x4d#8, 0x44#8, 0x20#8, 0x20#8,
    0x20#8, 0x49#8, 0x56#8, 0x52#8, 0x53#8, 0x20#8, 0x20#8, 0x20#8, 0x20#8] ++ List.replicate 20 0#8 ++
  [0x10#8, 0#8, 21#8, 0#8, 0#8, 0#8, 0#8, 0x00#8, 0x00#8, 0xd8#8, 0xfe#8, 0#8, 0#8, 0#8, 0#8, 0#8, 0#8,
    0xff#8, 0x18#8, 0#8, 0#8]

set_option maxRecDepth 2048 in
theorem docTable_new : IvrsTable.new docTable = .returns (.ok ⟨docTable⟩) := rfl

theorem docTable_yields : Yields BlockIter.next ⟨docTable.drop 44⟩ [.ivhd ⟨docTable.drop 44⟩] := by
  have hwhole : blockFraming.Whole (docTable.drop 44) := ⟨by decide, rfl⟩
  exact blocks_cuts.yields (Framing.tiles_whole (List.forall_mem_singleton.mpr hwhole))

end Iommu.Amd.Ivrs
