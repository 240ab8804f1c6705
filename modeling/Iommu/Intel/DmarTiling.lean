import Iommu.Intel.Dmar
import Iommu.Sealed

/-! How structures and device scopes tile a DMAR table.

Both iterators cut frames (`structs_cuts`, `scopes_cuts`), so both yield the tiles
of the bytes they start with; `table_tiles` puts the two levels together, for every
table that is accepted. -/
namespace Iommu.Intel.Dmar
open Lib Acpi

theorem DmarTable.accepted {raw : List U8} {t : DmarTable} (h : DmarTable.new raw = .returns (.ok t)) :
    kind.Accepted raw t := TableKind.accepted h

/-- An accepted table reaches its structures. -/
theorem DmarTable.structs_eq {raw : List U8} {t : DmarTable} (h : kind.Accepted raw t) :
    t.structs = .returns ⟨t.raw.drop structsOffset⟩ := by
  have hlen : structsOffset ≤ t.raw.length := by
    rw [h.view]
    exact h.offset_le_length
  rw [DmarTable.structs, Exec.sliceFrom_of_le hlen, Exec.returns_bind, Exec.pure_eq]

/-! ### Structures -/

abbrev structFraming : Framing U8 := recordFraming

theorem peekLen_eq {bytes : List U8} (h : 4 ≤ bytes.length) : peekLen bytes = .returns (some (recordLen bytes)) := by
  rw [peekLen, if_neg (Nat.not_lt.mpr h), Exec.index_eq_getD (by omega) 0#8, Exec.index_eq_getD (by omega) 0#8]
  rfl

/-- A structure as its bytes give it. -/
def RemapStruct.ofBytes (raw : List U8) : RemapStruct := .ofType (raw.getD 0 0#8) raw

theorem RemapStruct.raw_ofType (ty : U8) (raw : List U8) : (RemapStruct.ofType ty raw).raw = raw := by
  unfold RemapStruct.ofType
  split <;> rfl

theorem RemapStruct.raw_ofBytes (raw : List U8) : (RemapStruct.ofBytes raw).raw = raw := RemapStruct.raw_ofType _ raw

theorem StructIter.next_stuck (bytes : List U8) (h : structFraming.Stuck bytes) :
    StructIter.next ⟨bytes⟩ = .returns (none, ⟨bytes⟩) := by
  cases bytes with
  | nil => rfl
  | cons ty rest =>
    by_cases hlen : 4 ≤ (ty :: rest).length
    · have hcond : recordLen (ty :: rest) < 4 ∨ recordLen (ty :: rest) > (ty :: rest).length :=
        h.resolve_left (Nat.not_lt.mpr hlen)
      simp only [next, List.head?_cons, peekLen_eq hlen, Exec.returns_bind, if_pos hcond, Exec.pure_eq]
    · simp only [next, List.head?_cons, peekLen, if_pos (Nat.not_le.mp hlen), Exec.returns_bind, Exec.pure_eq]

theorem StructIter.next_cut (bytes : List U8) (h : ¬structFraming.Stuck bytes) :
    StructIter.next ⟨bytes⟩ =
      .returns (some (.ofBytes (bytes.take (recordLen bytes))), ⟨bytes.drop (recordLen bytes)⟩) := by
  obtain ⟨hheader, hfits⟩ := not_or.mp h
  have hlen : 4 ≤ bytes.length := Nat.not_lt.mp hheader
  have hcond : ¬(recordLen bytes < 4 ∨ recordLen bytes > bytes.length) := hfits
  obtain ⟨hge, hle⟩ := not_or.mp hcond
  cases bytes with
  | nil => exact absurd hlen (by decide)
  | cons ty rest =>
    rw [RemapStruct.ofBytes, getD_zero_take (ty :: rest) (by omega), List.getD_cons_zero]
    simp only [next, List.head?_cons, peekLen_eq hlen, Exec.returns_bind, if_neg hcond,
      Exec.splitAt_of_le (Nat.not_lt.mp hle), Exec.pure_eq]

theorem structs_cuts : structFraming.Cuts StructIter.next StructIter.mk RemapStruct.ofBytes :=
  .of_step StructIter.next_stuck StructIter.next_cut

/-! ### Device scopes -/

/-- The length byte of an entry. -/
def scopeLen (bytes : List U8) : Nat := (bytes.getD 1 0#8).toNat

def scopeFraming : Framing U8 where
  header := 6
  length := scopeLen
  header_pos := by decide
  length_append f rest h := by rw [scopeLen, scopeLen, List.getD_append f rest _ 1 (by omega)]

/-- An entry as its bytes give it. -/
def DeviceScope.ofBytes (raw : List U8) : DeviceScope where
  ty := .fromByte (raw.getD 0 0#8)
  bus := raw.getD 5 0#8
  enumerationId := raw.getD 4 0#8
  flags := u16FromLe (raw.getD 2 0#8) (raw.getD 3 0#8)
  path := raw.drop 6

theorem DeviceScope.read_eq {raw : List U8} (h : 6 ≤ raw.length) :
    DeviceScope.read (raw.getD 0 0#8) raw = .returns (.ofBytes raw) := by
  rw [read, Exec.index_eq_getD (by omega) 0#8, Exec.index_eq_getD (by omega) 0#8,
    Exec.index_eq_getD (by omega) 0#8, Exec.index_eq_getD (by omega) 0#8, Exec.sliceFrom_of_le h]
  rfl

theorem DeviceScopeIter.next_stuck (bytes : List U8) (h : scopeFraming.Stuck bytes) :
    DeviceScopeIter.next ⟨bytes⟩ = .returns (none, ⟨bytes⟩) := by
  by_cases hlen : bytes.length < 6
  · exact if_pos hlen
  · have hcond : scopeLen bytes < 6 ∨ scopeLen bytes > bytes.length := h.resolve_left hlen
    have hty : Exec.index bytes 0 = .returns (bytes.getD 0 0#8) := Exec.index_eq_getD (by omega) 0#8
    have hlenByte : Exec.index bytes 1 = .returns (bytes.getD 1 0#8) := Exec.index_eq_getD (by omega) 0#8
    simp only [next, if_neg hlen, hty, hlenByte, Exec.returns_bind]
    exact if_pos hcond

theorem DeviceScopeIter.next_cut (bytes : List U8) (h : ¬scopeFraming.Stuck bytes) :
    DeviceScopeIter.next ⟨bytes⟩ =
      .returns (some (.ofBytes (bytes.take (scopeLen bytes))), ⟨bytes.drop (scopeLen bytes)⟩) := by
  obtain ⟨hlen, hfits⟩ := not_or.mp h
  have hcond : ¬(scopeLen bytes < 6 ∨ scopeLen bytes > bytes.length) := hfits
  obtain ⟨hge, hle⟩ := not_or.mp hcond
  have hsix : 6 ≤ bytes.length := Nat.not_lt.mp hlen
  have hentry : 6 ≤ (bytes.take (scopeLen bytes)).length := by
    rw [List.length_take]
    omega
  have hty : Exec.index bytes 0 = .returns (bytes.getD 0 0#8) := Exec.index_eq_getD (by omega) 0#8
  have hlenByte : Exec.index bytes 1 = .returns (bytes.getD 1 0#8) := Exec.index_eq_getD (by omega) 0#8
  have hread := DeviceScope.read_eq hentry
  rw [getD_zero_take bytes (by omega)] at hread
  rw [scopeLen] at hcond hread hle ⊢
  simp only [next, if_neg (Nat.not_lt.mpr hsix), hty, hlenByte, Exec.returns_bind, if_neg hcond,
    Exec.splitAt_of_le (Nat.not_lt.mp hle), hread, Exec.pure_eq]

theorem scopes_cuts : scopeFraming.Cuts DeviceScopeIter.next DeviceScopeIter.mk DeviceScope.ofBytes :=
  .of_step DeviceScopeIter.next_stuck DeviceScopeIter.next_cut

/-- Where the scope list of a structure starts, and its iterator. -/
def RemapStruct.scopeList : RemapStruct → Option (Nat × DeviceScopeIter)
  | drhd s => some (16, s.scopes)
  | rmrr s => some (24, s.scopes)
  | atsr s => some (8, s.scopes)
  | satc s => some (8, s.scopes)
  | sidp s => some (8, s.scopes)
  | rhsa _ => none
  | andd _ => none
  | unknown _ _ => none

theorem scopesAfter_eq (fixed : Nat) (raw : List U8) : scopesAfter fixed raw = ⟨raw.drop fixed⟩ := by
  rw [scopesAfter]
  split
  case isTrue => rfl
  case isFalse h => rw [List.drop_of_length_le (Nat.le_of_lt (Nat.not_le.mp h))]

theorem RemapStruct.scopeList_eq {s : RemapStruct} {fixed : Nat} {it : DeviceScopeIter}
    (h : s.scopeList = some (fixed, it)) : it = ⟨s.raw.drop fixed⟩ := by
  rw [← scopesAfter_eq]
  cases s <;> cases h <;> rfl

/-! ### The table -/

/-- A structure that carries its own length and is the variant of its first byte. -/
structure RemapStruct.WellFormed (s : RemapStruct) : Prop where
  four_le : 4 ≤ s.raw.length
  length_field : recordLen s.raw = s.raw.length
  variant : s = .ofType (s.raw.getD 0 0#8) s.raw

/-- The scopes of a structure are tiles of the bytes after its fixed part. -/
def RemapStruct.ScopesTile (s : RemapStruct) : Prop :=
  ∀ fixed it, s.scopeList = some (fixed, it) → ∃ entries tail,
    scopeFraming.Tiles (s.raw.drop fixed) entries tail ∧
      Yields DeviceScopeIter.next it (entries.map DeviceScope.ofBytes)

theorem RemapStruct.scopesTile (s : RemapStruct) : s.ScopesTile := by
  intro fixed it h
  obtain ⟨entries, tail, htiles⟩ := scopeFraming.exists_tiles (s.raw.drop fixed)
  refine ⟨entries, tail, htiles, ?_⟩
  rw [RemapStruct.scopeList_eq h]
  exact scopes_cuts.yields htiles

/-- Scopes that are written as whole entries are the entries that are read. -/
theorem RemapStruct.ScopesTile.yields {s : RemapStruct} (h : s.ScopesTile) {fixed : Nat} {it : DeviceScopeIter}
    (hlist : s.scopeList = some (fixed, it)) {entries : List (List U8)} (hwhole : ∀ e ∈ entries, scopeFraming.Whole e)
    (hbytes : s.raw.drop fixed = entries.flatten) :
    Yields DeviceScopeIter.next it (entries.map DeviceScope.ofBytes) := by
  obtain ⟨entries', tail, htiles, hyields⟩ := h fixed it hlist
  rw [hbytes] at htiles
  obtain ⟨rfl, -⟩ := Framing.tiles_unique htiles (Framing.tiles_whole hwhole)
  exact hyields

theorem RemapStruct.wellFormed_ofBytes {f : List U8} (h : structFraming.Whole f) :
    (RemapStruct.ofBytes f).WellFormed := by
  have hraw := RemapStruct.raw_ofBytes f
  exact {
    four_le := by
      rw [hraw]
      exact h.header_le
    length_field := by
      rw [hraw]
      exact h.length_eq
    variant := by
      rw [hraw]
      rfl }

/-- Well-formed structures, one after another, are tiles. -/
theorem tiles_of_wellFormed {built : List RemapStruct} (h : ∀ s ∈ built, s.WellFormed) :
    structFraming.Tiles (built.flatMap RemapStruct.raw) (built.map RemapStruct.raw) [] where
  bytes := by rw [List.append_nil, List.flatMap_def]
  whole := List.forall_mem_map.mpr fun s hs => ⟨(h s hs).four_le, (h s hs).length_field⟩
  stuck := .inl structFraming.header_pos

theorem map_ofBytes_raw {built : List RemapStruct} (h : ∀ s ∈ built, s.WellFormed) :
    (built.map RemapStruct.raw).map RemapStruct.ofBytes = built := by
  rw [List.map_map]
  exact (List.map_congr_left fun s hs => (h s hs).variant.symm).trans (List.map_id built)

/-- **Structures and scopes tile an accepted table**, and structures that a table was
built of are the ones it is parsed to. -/
theorem table_tiles (raw : List U8) (t : DmarTable) (h : DmarTable.new raw = .returns (.ok t)) :
    ∃ it structs tail, t.structs = .returns it ∧ Yields StructIter.next it structs ∧
      structs.flatMap RemapStruct.raw ++ tail = t.raw.drop structsOffset ∧
      (∀ s ∈ structs, s.WellFormed ∧ s.ScopesTile) ∧ structFraming.Stuck tail ∧
      ∀ built, (∀ s ∈ built, s.WellFormed) → built.flatMap RemapStruct.raw = t.raw.drop structsOffset →
        structs = built := by
  obtain ⟨frames, tail, htiles⟩ := structFraming.exists_tiles (t.raw.drop structsOffset)
  have hstructs := DmarTable.structs_eq (DmarTable.accepted h)
  refine ⟨_, frames.map RemapStruct.ofBytes, tail, hstructs, structs_cuts.yields htiles, ?_, ?_, htiles.stuck, ?_⟩
  · rw [Framing.flatMap_items RemapStruct.raw_ofBytes, htiles.bytes]
  · exact List.forall_mem_map.mpr fun f hf =>
      ⟨RemapStruct.wellFormed_ofBytes (htiles.whole f hf), RemapStruct.scopesTile _⟩
  · intro built hbuilt hbytes
    have hsame := tiles_of_wellFormed hbuilt
    rw [hbytes] at hsame
    rw [(Framing.tiles_unique htiles hsame).1, map_ofBytes_raw hbuilt]

/-- The entry of one endpoint. -/
def unitScope : List U8 := [0x01#8, 8#8, 0#8, 0#8, 0#8, 0#8, 0x1f#8, 0#8]

/-- A hardware unit for that endpoint. -/
def scopedUnit : Drhd :=
  ⟨[0#8, 0#8, 24#8, 0#8, 0#8, 0#8, 0#8, 0#8, 0x00#8, 0x00#8, 0xd9#8, 0xfe#8, 0#8, 0#8, 0#8, 0#8] ++ unitScope⟩

/-- The entry of one hierarchy. -/
def portScope : List U8 := [0x02#8, 8#8, 0#8, 0#8, 0#8, 0#8, 0x1c#8, 0#8]

/-- The root ports above it. -/
def scopedPorts : Atsr := ⟨[2#8, 0#8, 16#8, 0#8, 0#8, 0#8, 0#8, 0#8] ++ portScope⟩

def scopedStructs : List RemapStruct := [.drhd scopedUnit, .atsr scopedPorts]

/-- A table of the two. -/
def scopedTable : List U8 :=
  sealed dmarSignature 1#8 (List.replicate 38 0#8 ++ scopedStructs.flatMap RemapStruct.raw)

theorem scopedTable_tiles : ∃ it, DmarTable.structs ⟨scopedTable⟩ = .returns it ∧
    Yields StructIter.next it [.drhd scopedUnit, .atsr scopedPorts] ∧
    Yields DeviceScopeIter.next scopedUnit.scopes [⟨.pciEndpoint, 0#8, 0#8, 0#16, [0x1f#8, 0#8]⟩] ∧
    Yields DeviceScopeIter.next scopedPorts.scopes [⟨.pciSubhierarchy, 0#8, 0#8, 0#16, [0x1c#8, 0#8]⟩] := by
  have hnew : DmarTable.new scopedTable = .returns (.ok ⟨scopedTable⟩) :=
    (sealed_accepted 1#8 kind rfl rfl (scopedStructs.flatMap RemapStruct.raw) (by decide)).accept
  have hbytes : scopedTable.drop structsOffset = scopedStructs.flatMap RemapStruct.raw :=
    drop_sealed 1#8 kind rfl rfl _
  obtain ⟨it, structs, -, hstructs, hyields, -, hwell, -, hbuilt⟩ := table_tiles scopedTable ⟨scopedTable⟩ hnew
  have hformed : ∀ s ∈ scopedStructs, s.WellFormed :=
    List.forall_mem_cons.mpr ⟨⟨by decide, by decide, rfl⟩,
      List.forall_mem_singleton.mpr ⟨by decide, by decide, rfl⟩⟩
  obtain rfl : structs = scopedStructs := hbuilt _ hformed hbytes.symm
  obtain ⟨⟨-, hunit⟩, hrest⟩ := List.forall_mem_cons.mp hwell
  obtain ⟨-, hports⟩ := List.forall_mem_singleton.mp hrest
  have hwhole : ∀ e ∈ [unitScope], scopeFraming.Whole e := List.forall_mem_singleton.mpr ⟨by decide, rfl⟩
  have hwhole' : ∀ e ∈ [portScope], scopeFraming.Whole e := List.forall_mem_singleton.mpr ⟨by decide, rfl⟩
  exact ⟨it, hstructs, hyields, hunit.yields rfl hwhole rfl, hports.yields rfl hwhole' rfl⟩

/-- The table of the module's documentation, with one hardware unit. -/
def docTable : List U8 :=
  [0x44#8, 0x4d#8, 0x41#8, 0x52#8, 64#8, 0#8, 0#8, 0#8, 1#8, 0xbd#8, 0x4f#8, 0x45#8, 0x4d#8, 0x20#8, 0x20#8,
    0x20#8, 0x54#8, 0x42#8, 0x4c#8, 0x20#8, 0x20#8, 0x20#8, 0x20#8, 0x20#8] ++ List.replicate 12 0#8 ++
  [51#8, 0#8] ++ List.replicate 10 0#8 ++
  [0#8, 0#8, 16#8, 0#8, 0#8, 1#8, 0#8, 0#8, 0x00#8, 0x00#8, 0xd9#8, 0xfe#8, 0#8, 0#8, 0#8, 0#8]

/-! ### Built tables -/

/-- Any list of well-formed structures that a table is sealed around comes back from it. -/
theorem build_round_trip (revision : U8) {header : List U8} (hheader : header.length = 38) (built : List RemapStruct)
    (h : ∀ s ∈ built, s.WellFormed) (hsize : structsOffset + (built.flatMap RemapStruct.raw).length < 2 ^ 32) :
    ∃ t it,
      DmarTable.new (sealed dmarSignature revision (header ++ built.flatMap RemapStruct.raw)) = .returns (.ok t) ∧
      t.structs = .returns it ∧ Yields StructIter.next it built := by
  have hoffset : 10 + header.length = kind.offset := congrArg (10 + ·) hheader
  have haccepted := sealed_accepted revision kind rfl hoffset (built.flatMap RemapStruct.raw) hsize
  have hbytes := drop_sealed revision kind rfl hoffset (built.flatMap RemapStruct.raw)
  have hyields := structs_cuts.yields (tiles_of_wellFormed h)
  rw [map_ofBytes_raw h, ← hbytes] at hyields
  exact ⟨_, _, haccepted.accept, DmarTable.structs_eq haccepted, hyields⟩

end Iommu.Intel.Dmar
