import Iommu.Amd.IvrsAccess

/-! What the iterators of an IVRS table reach.

The device entry iterator loses nothing of the bytes that it is given, whatever they
are (`devices_lossless`). It is given too few: `devices` skips three bytes more than a
header has (`devices_after_header_iff`). And of the three types of memory definitions
that the module names, `ivmd_units` passes one on (`ivmd_units_iff`). -/
namespace Iommu.Amd.Ivrs
open Lib Acpi

/-! ### Device entries -/

/-- The types whose entries are of eight bytes. -/
def LongType (first : U8) : Prop := first = 0x03#8 ∨ (0x28#8 ≤ first ∧ first ≤ 0x2f#8)

/-- The bytes of one entry, as many as its type has. -/
structure EntryBytes (f : List U8) : Prop where
  variable_len : variableType (f.getD 0 0#8) = true → 4 ≤ f.length ∧ f.length = (f.getD 1 0#8).toNat
  long_len : LongType (f.getD 0 0#8) → f.length = 8
  short_len : variableType (f.getD 0 0#8) = false → ¬LongType (f.getD 0 0#8) → f.length = 4

/-- The bytes are too few for the entry that they start, or its length byte is wrong. -/
def Ends : List U8 → Prop
  | [] => True
  | first :: rest =>
    if variableType first then rest = [] ∨ (rest.getD 0 0#8).toNat < 4 ∨ rest.length + 1 < (rest.getD 0 0#8).toNat
    else rest.length + 1 < needed first

/-- From the first bytes the iterator returns the entries, each cut off whole, until it
stops before the last. -/
inductive Iterates : List U8 → List DeviceEntry → List U8 → Prop where
  | stop {bs} (hends : Ends bs) (hnext : DeviceEntryIter.next ⟨bs⟩ = .returns (none, ⟨bs⟩)) : Iterates bs [] bs
  | step {f rest entries tail} (hbytes : EntryBytes f)
    (hraw : ∀ ty raw, DeviceEntry.ofBytes f = .variableLen ty raw → raw = f)
    (hnext : DeviceEntryIter.next ⟨f ++ rest⟩ = .returns (some (.ofBytes f), ⟨rest⟩))
    (hrest : Iterates rest entries tail) : Iterates (f ++ rest) (.ofBytes f :: entries) tail

theorem needed_of_long {first : U8} (h : LongType first) : needed first = 8 := by
  have hne : ¬(first = 0x01#8 ∨ first = 0x02#8) := by
    rintro (rfl | rfl) <;> exact absurd h (by unfold LongType; decide)
  rw [needed, if_neg hne]
  exact if_pos h

theorem needed_of_short {first : U8} (h : ¬LongType first) : needed first = 4 := by
  rw [needed]
  split
  · rfl
  · exact if_neg h

theorem fixed_of_long {first : U8} (h : LongType first) : variableType first = false := by
  rcases h with rfl | ⟨hlo, hhi⟩
  · rfl
  · have hrange : ∀ x : U8, 0x28#8 ≤ x → x ≤ 0x2f#8 → variableType x = false := by decide
    exact hrange first hlo hhi

theorem entryBytes_of_whole {f : List U8} (h : deviceFraming.Whole f) : EntryBytes f where
  variable_len := fun hvariable => by
    have hlen : (f.getD 1 0#8).toNat = f.length := (if_pos hvariable).symm.trans h.length_eq
    exact ⟨h.header_le, hlen.symm⟩
  long_len := fun hlong => by
    have hlen : needed (f.getD 0 0#8) = f.length :=
      (if_neg (by rw [fixed_of_long hlong]; decide)).symm.trans h.length_eq
    rw [← hlen, needed_of_long hlong]
  short_len := fun hfixed hshort => by
    have hlen : needed (f.getD 0 0#8) = f.length := (if_neg (by rw [hfixed]; decide)).symm.trans h.length_eq
    rw [← hlen, needed_of_short hshort]

theorem ends_of_stuck {bs : List U8} (h : deviceFraming.Stuck bs) : Ends bs := by
  have hstuck : bs.length < 4 ∨ deviceLen bs < 4 ∨ bs.length < deviceLen bs := h
  cases bs with
  | nil => trivial
  | cons first rest =>
    rw [List.length_cons] at hstuck
    rw [Ends]
    split
    case isTrue hvariable =>
      have hlen : deviceLen (first :: rest) = (rest.getD 0 0#8).toNat := if_pos hvariable
      right
      omega
    case isFalse hfixed =>
      have hlen : deviceLen (first :: rest) = needed first := if_neg hfixed
      have hneeded := needed_eq first
      omega

/-- Only an entry of a variable length holds bytes, and they are its own. -/
theorem raw_of_variable {f raw : List U8} {ty : DeviceType} (h : DeviceEntry.ofBytes f = .variableLen ty raw) :
    raw = f := by
  simp only [DeviceEntry.ofBytes] at h
  split at h
  case isTrue =>
    cases h
    rfl
  case isFalse => split at h <;> cases h

theorem iterates_of_tiles {bs tail : List U8} {frames : List (List U8)} (h : deviceFraming.Tiles bs frames tail) :
    Iterates bs (frames.map DeviceEntry.ofBytes) tail := by
  induction h using Framing.Tiles.induct with
  | nil hstuck => exact .stop (ends_of_stuck hstuck) (devices_cuts.stuck tail hstuck)
  | cons f bs frames hf _ ih =>
    exact .step (entryBytes_of_whole hf) (fun _ _ => raw_of_variable) (devices_cuts.cut f bs hf) ih

/-- Every entry is of four bytes at least. -/
theorem Iterates.length_le {bs tail : List U8} {entries : List DeviceEntry} (h : Iterates bs entries tail) :
    4 * entries.length ≤ bs.length := by
  induction h with
  | stop => exact Nat.zero_le _
  | @step f rest _ _ hbytes _ _ _ ih =>
    have hfour : 4 ≤ f.length := by
      cases hvariable : variableType (f.getD 0 0#8) with
      | true => exact (hbytes.variable_len hvariable).1
      | false =>
        by_cases hlong : LongType (f.getD 0 0#8)
        · rw [hbytes.long_len hlong]
          decide
        · rw [hbytes.short_len hvariable hlong]
    rw [List.length_append, List.length_cons]
    omega

/-- **Nothing is lost of any bytes**: they are entries of their types' lengths, each
returned once and in order, and then what no entry can be cut from. -/
theorem devices_lossless (bs : List U8) : ∃ entries tail, Iterates bs entries tail ∧
    Yields DeviceEntryIter.next ⟨bs⟩ entries ∧ entries.length ≤ bs.length / 4 := by
  obtain ⟨frames, tail, htiles⟩ := deviceFraming.exists_tiles bs
  have hrun := iterates_of_tiles htiles
  have hcount := hrun.length_le
  exact ⟨_, tail, hrun, devices_cuts.yields htiles, by omega⟩

/-! ### The entries of a hardware definition -/

/-- A header of the fields that the accessors read, and no more. -/
def IsHeader (header : List U8) : Prop :=
  header.getD 0 0#8 = 0x10#8 ∧ header.length = 21 ∨
    (header.getD 0 0#8 = 0x11#8 ∨ header.getD 0 0#8 = 0x40#8) ∧ header.length = 25

/-- The number of bytes that an entry is cut from. -/
def DeviceEntry.size : DeviceEntry → Nat
  | short _ _ _ => 4
  | long _ _ _ _ => 8
  | variableLen _ raw => raw.length

theorem DeviceEntry.size_ofBytes {f : List U8} (h : deviceFraming.Whole f) : (ofBytes f).size = f.length := by
  have hlen : deviceLen f = f.length := h.length_eq
  unfold deviceLen at hlen
  simp only [ofBytes]
  split
  case isTrue => rfl
  case isFalse hfixed =>
    rw [if_neg hfixed] at hlen
    rcases needed_eq (f.getD 0 0#8) with hfour | height
    · rw [if_pos hfour, ← hlen, hfour]
      rfl
    · rw [if_neg (by rw [height]; decide), ← hlen, height]
      rfl

/-- The entries tell how many bytes they were cut from. -/
theorem sum_sizes {frames : List (List U8)} (h : ∀ f ∈ frames, deviceFraming.Whole f) :
    ((frames.map DeviceEntry.ofBytes).map DeviceEntry.size).sum = frames.flatten.length := by
  induction frames with
  | nil => rfl
  | cons f frames ih =>
    obtain ⟨hf, hframes⟩ := List.forall_mem_cons.mp h
    simp only [List.map_cons, List.sum_cons, List.flatten_cons, List.length_append, ih hframes,
      DeviceEntry.size_ofBytes hf]

/-- Fewer bytes have other entries. -/
theorem yields_whole {bs : List U8} {frames : List (List U8)} (h : ∀ f ∈ frames, deviceFraming.Whole f)
    (hyields : Yields DeviceEntryIter.next ⟨bs⟩ (frames.map DeviceEntry.ofBytes)) :
    frames.flatten.length ≤ bs.length := by
  obtain ⟨cut, tail, htiles⟩ := deviceFraming.exists_tiles bs
  have hsame : frames.map DeviceEntry.ofBytes = cut.map DeviceEntry.ofBytes :=
    yields_unique hyields (devices_cuts.yields htiles)
  rw [← sum_sizes h, hsame, sum_sizes htiles.whole, ← htiles.bytes, List.length_append]
  exact Nat.le_add_right _ _

/-- What `devices` iterates over after a header: all but the first three bytes. -/
theorem devices_of_header {header : List U8} (h : IsHeader header) (entries : List U8) :
    (Ivhd.mk (header ++ entries)).devices = .returns ⟨entries.drop 3⟩ := by
  have hskip : ∀ hdr, header.length + 3 = hdr → Exec.returns (DeviceEntryIter.mk
      (if hdr ≤ (header ++ entries).length then (header ++ entries).drop hdr else [])) =
        .returns ⟨entries.drop 3⟩ := by
    rintro hdr rfl
    rw [List.length_append, List.drop_length_add_append]
    split
    case isTrue => rfl
    case isFalse hshort => rw [List.drop_eq_nil_of_le (show entries.length ≤ 3 by omega)]
  have hlen : 0 < header.length := by
    rcases h with ⟨-, hlen⟩ | ⟨-, hlen⟩ <;> omega
  have hfirst : Exec.index (header ++ entries) 0 = .returns (header.getD 0 0#8) := by
    rw [Exec.index_eq_getD (by rw [List.length_append]; omega) 0#8, List.getD_append header entries _ 0 hlen]
  rw [Ivhd.devices, Ivhd.entryType, hfirst, Exec.returns_bind, Exec.pure_eq, Exec.returns_bind]
  rcases h with ⟨hty, hlen⟩ | ⟨hty | hty, hlen⟩
  · rw [hty]
    exact hskip 24 (by omega)
  · rw [hty]
    exact hskip 28 (by omega)
  · rw [hty]
    exact hskip 28 (by omega)

/-- **When the entries after a header are those that it has**: when it has none. -/
theorem devices_after_header_iff (header : List U8) (h : IsHeader header) (frames : List (List U8))
    (hwhole : ∀ f ∈ frames, deviceFraming.Whole f) :
    (∃ it, (Ivhd.mk (header ++ frames.flatten)).devices = .returns it ∧
      Yields DeviceEntryIter.next it (frames.map DeviceEntry.ofBytes)) ↔ frames = [] := by
  rw [devices_of_header h]
  constructor
  · rintro ⟨it, hit, hyields⟩
    cases hit
    have hlen := yields_whole hwhole hyields
    cases frames with
    | nil => rfl
    | cons f frames =>
      have hfour : 4 ≤ f.length := (hwhole f List.mem_cons_self).header_le
      rw [List.length_drop, List.flatten_cons, List.length_append] at hlen
      omega
  · rintro rfl
    exact ⟨_, rfl, devices_cuts.yields (deviceFraming.tiles_nil (.inl (by decide)))⟩

/-- A header of type 10h for a block of 25 bytes. -/
def docHeader : List U8 :=
  [0x10#8, 0#8, 25#8, 0#8, 0#8, 0#8, 0#8, 0x00#8, 0x00#8, 0xd8#8, 0xfe#8, 0#8, 0#8, 0#8, 0#8, 0#8, 0#8,
    0xff#8, 0x18#8, 0#8, 0#8]

theorem docHeader_isHeader : IsHeader docHeader := .inl ⟨rfl, rfl⟩

/-- The entry of one device. -/
def docEntry : List U8 := [0x02#8, 0x08#8, 0#8, 0#8]

theorem docEntry_whole : deviceFraming.Whole docEntry := ⟨by decide, rfl⟩

theorem devices_after_docHeader : ∃ it, (Ivhd.mk (docHeader ++ List.flatten [])).devices = .returns it ∧
    Yields DeviceEntryIter.next it (List.map DeviceEntry.ofBytes []) :=
  (devices_after_header_iff docHeader docHeader_isHeader [] fun _ hf => absurd hf List.not_mem_nil).mpr rfl

/-- The one entry after a header is skipped. -/
theorem first_device_skipped : ¬∀ header, IsHeader header → ∀ frames : List (List U8),
    (∀ f ∈ frames, deviceFraming.Whole f) →
      ∃ it, (Ivhd.mk (header ++ frames.flatten)).devices = .returns it ∧
        Yields DeviceEntryIter.next it (frames.map DeviceEntry.ofBytes) := by
  intro h
  obtain ⟨it, hit, hyields⟩ :=
    h docHeader docHeader_isHeader [docEntry] (List.forall_mem_singleton.mpr docEntry_whole)
  cases hit
  have hnone : Yields DeviceEntryIter.next ⟨[0#8]⟩ [] :=
    devices_cuts.yields (deviceFraming.tiles_nil (.inl (by decide)))
  cases yields_unique hyields hnone

/-! ### Memory definitions -/

/-- The types of memory definitions that the module names. -/
def memoryType (ty : U8) : Bool := ty == 0x20#8 || ty == 0x21#8 || ty == 0x22#8

def Block.type (b : Block) : U8 := b.raw.getD 0 0#8

theorem Block.asIvmd_ofType (ty : U8) (raw : List U8) :
    (Block.ofType ty raw).asIvmd = if ty = 0x20#8 then some ⟨raw⟩ else none := by
  have hmemory : ∀ ty, EntryType.fromByte ty = .ivmd ↔ ty = 0x20#8 := by decide
  simp only [← hmemory ty, ofType]
  cases EntryType.fromByte ty <;> simp [asIvmd]

/-- The memory definitions that are passed on are the blocks of type 20h. -/
theorem raws_of_ivmd {blocks : List Block} (h : ∀ b ∈ blocks, b.WellFormed) :
    (blocks.filterMap Block.asIvmd).map Ivmd.raw = (blocks.filter fun b => b.type == 0x20#8).map Block.raw := by
  induction blocks with
  | nil => rfl
  | cons b blocks ih =>
    obtain ⟨hb, hblocks⟩ := List.forall_mem_cons.mp h
    have hvariant : b.asIvmd = if b.type = 0x20#8 then some ⟨b.raw⟩ else none := by
      rw [hb.variant, Block.asIvmd_ofType, ← hb.variant]
      rfl
    by_cases hty : b.type = 0x20#8
    · simp [hvariant, hty, ih hblocks]
    · simp [hvariant, hty, ih hblocks]

/-- **When no memory definition is dropped**: when none is of type 21h or 22h. -/
theorem ivmd_units_iff (raw : List U8) (t : IvrsTable) (h : IvrsTable.new raw = .returns (.ok t))
    (it it' : BlockIter) (blocks : List Block) (ms : List Ivmd) (hit : t.blocks = .returns it)
    (hblocks : Yields BlockIter.next it blocks) (hit' : t.ivmdUnits = .returns it') (hms : Yields nextIvmd it' ms) :
    ms.map Ivmd.raw = (blocks.filter fun b => memoryType b.type).map Block.raw ↔
      ∀ b ∈ blocks, b.type ≠ 0x21#8 ∧ b.type ≠ 0x22#8 := by
  have hpassed : ∀ ty : U8, (ty == 0x20#8) = memoryType ty ↔ ty ≠ 0x21#8 ∧ ty ≠ 0x22#8 := by decide
  have hunits : ms = blocks.filterMap Block.asIvmd := by
    cases hit.symm.trans hit'
    exact yields_unique hms (filterMap_yields hblocks)
  have hraws : ∀ p : U8 → Bool, (blocks.filter fun b => p b.type).map Block.raw =
      (blocks.map Block.raw).filter fun raw => p (raw.getD 0 0#8) := fun p => by
    rw [List.filter_map]
    rfl
  rw [hunits, raws_of_ivmd (wellFormed_of_yields h hit hblocks), hraws fun ty => ty == 0x20#8, hraws memoryType,
    filter_eq_iff, List.forall_mem_map]
  exact forall₂_congr fun b _ => hpassed b.type

theorem shortTable_ivmd : [Ivmd.mk [0x20#8, 0#8, 4#8, 0#8]].map Ivmd.raw =
    ([Block.ivhd ⟨[0x10#8, 0#8, 4#8, 0#8]⟩, Block.ivmd ⟨[0x20#8, 0#8, 4#8, 0#8]⟩].filter
      fun b => memoryType b.type).map Block.raw :=
  (ivmd_units_iff shortTable ⟨shortTable⟩ shortTable_new _ _ _ _ rfl shortTable_yields rfl
    (filterMap_yields shortTable_yields)).mpr (by decide)

/-- A table with one memory definition, of type 21h. -/
def memoryTable : List U8 :=
  ((docTable.take 44).set 4 76#8).set 9 0xa4#8 ++
    [0x21#8, 1#8, 32#8, 0#8, 8#8, 0#8, 0#8, 0#8, 0#8, 0#8, 0#8, 0x7b#8, 0#8, 0#8, 0#8, 0#8, 0#8, 0#8, 0x10#8, 0#8] ++
      List.replicate 12 0#8

set_option maxRecDepth 2048 in
theorem memoryTable_new : IvrsTable.new memoryTable = .returns (.ok ⟨memoryTable⟩) := rfl

theorem memoryTable_yields :
    Yields BlockIter.next ⟨memoryTable.drop 44⟩ [.unknown 0x21#8 (memoryTable.drop 44)] := by
  have hwhole : blockFraming.Whole (memoryTable.drop 44) := ⟨by decide, rfl⟩
  exact blocks_cuts.yields (Framing.tiles_whole (List.forall_mem_singleton.mpr hwhole))

/-- It is dropped. -/
theorem memory_21_dropped : ¬∀ raw t it it' blocks ms, IvrsTable.new raw = .returns (.ok t) →
    t.blocks = .returns it → Yields BlockIter.next it blocks → t.ivmdUnits = .returns it' → Yields nextIvmd it' ms →
      ms.map Ivmd.raw = (blocks.filter fun b => memoryType b.type).map Block.raw := by
  intro h
  have hunits := h memoryTable ⟨memoryTable⟩ _ _ _ [] memoryTable_new rfl memoryTable_yields rfl
    (filterMap_yields memoryTable_yields)
  cases hunits

end Iommu.Amd.Ivrs
