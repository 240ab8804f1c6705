import Iommu.Intel.ContextFields
import Iommu.Amd.DteFields
import Iommu.Amd.Irte
import Iommu.Lib.Records

/-! Tables of entries in memory.

The driver stores the bytes of an entry in a slot of a table, the other side reads the slot
where it lies, through an overlay. The slots of a table do not meet and an entry is its
qwords, so after any stores a slot shows the entry that was stored there last
(`tables_hold`). The overlays themselves are not this repository's: they are taken as
readers that show what aligned bytes of the right length hold (`RefFromBytes`). -/
namespace Iommu.Tables
open Lib

/-- A kind of entry: what it is in memory. -/
structure Kind (E : Type) where
  qwordCount : Nat
  intoBytes : E → Exec (List U8)
  fromBytes : List U8 → Exec E
  qwords : E → List U64
  wire : Wire intoBytes fromBytes qwords
  length_qwords : ∀ e, (qwords e).length = qwordCount
  qwords_surjective : ∀ qs, qs.length = qwordCount → ∃ e, qwords e = qs

namespace Kind
variable {E : Type} (K : Kind E)

def size : Nat := 8 * K.qwordCount

/-- An entry stored in a slot of a table. -/
def store (table : List U8) (i : Nat) (e : E) : Exec (List U8) := do
  let raw ← K.intoBytes e
  Exec.copyInto table (K.size * i) (K.size * i + K.size) raw

/-- Entries stored one after another. -/
def storeAll (table : List U8) : List (Nat × E) → Exec (List U8)
  | [] => return table
  | (i, e) :: stores => do
    let table ← K.store table i e
    storeAll table stores

/-- What the overlay makes of a slot of a table at `base`. -/
def entryAt (overlay : Nat → List U8 → Option E) (base : Nat) (table : List U8) (i : Nat) : Exec (Option E) := do
  let raw ← Exec.slice table (K.size * i) (K.size * i + K.size)
  return overlay (base + K.size * i) raw

/-- `ref_from_bytes` of the entry's type: bytes of its size at an aligned address are the
entry that they hold. -/
def RefFromBytes {Err : Type} (refFromBytes : Nat → List U8 → Except Err E) : Prop :=
  ∀ addr bytes e, addr % 8 = 0 → bytes.length = K.size → K.fromBytes bytes = .returns e →
    refFromBytes addr bytes = .ok e

/-- What a table shows after it was stored into. -/
structure Shows (overlay : Nat → List U8 → Option E) (base count : Nat) (table after : List U8)
    (stores : List (Nat × E)) : Prop where
  last : ∀ i e pre post, stores = pre ++ (i, e) :: post → (∀ s ∈ post, s.1 ≠ i) →
    K.entryAt overlay base after i = .returns (some e)
  untouched : ∀ i < count, (∀ s ∈ stores, s.1 ≠ i) →
    Exec.slice after (K.size * i) (K.size * i + K.size) = Exec.slice table (K.size * i) (K.size * i + K.size)
  whole : ∀ i < count, ∃ e, K.entryAt overlay base after i = .returns (some e) ∧
    Exec.slice after (K.size * i) (K.size * i + K.size) = K.intoBytes e

/-- Stores into slots that a table has leave it showing them, any other store panics. -/
structure Holds (overlay : Nat → List U8 → Option E) : Prop where
  shows : ∀ base count table stores, base % 8 = 0 → table.length = K.size * count → (∀ s ∈ stores, s.1 < count) →
    ∃ after, K.storeAll table stores = .returns after ∧ after.length = table.length ∧
      K.Shows overlay base count table after stores
  past : ∀ count table stores, table.length = K.size * count → (∃ s ∈ stores, count ≤ s.1) →
    K.storeAll table stores = .panics .bounds

/-! ### Stores as calls of a page -/

def record (e : E) : Page.Record U8 K.size :=
  ⟨(K.qwords e).flatMap u64ToLe, by rw [length_flatMap_toLe, K.length_qwords, size]⟩

variable {count : Nat}

def calls (stores : List (Fin count × E)) : List (Page.slots U8 count K.size).Call :=
  stores.map fun s => ⟨s.1, K.record s.2⟩

/-- A store past the table panics. -/
theorem store_past {table : List U8} (h : table.length = K.size * count) (hsize : 0 < K.size) {i : Nat}
    (hi : count ≤ i) (e : E) : K.store table i e = .panics .bounds := by
  have hpast : ¬(K.size * i ≤ K.size * i + K.size ∧ K.size * i + K.size ≤ table.length) := by
    have := Nat.mul_le_mul_left K.size hi
    omega
  rw [store, K.wire.bytes, Exec.returns_bind, Exec.copyInto, Exec.slice, if_neg hpast]
  rfl

theorem store_eq (p : Page U8 count K.size) (i : Fin count) (e : E) :
    K.store p.items i e = .returns (p.put i (K.record e)).items := by
  rw [store, K.wire.bytes, Exec.returns_bind]
  exact Page.copyInto_eq i (K.record e) p

theorem storeAll_eq (p : Page U8 count K.size) (stores : List (Fin count × E)) :
    K.storeAll p.items (stores.map fun s => (s.1.val, s.2)) =
      .returns ((Page.slots U8 count K.size).run p (K.calls stores)).items := by
  induction stores generalizing p with
  | nil => rfl
  | cons s stores ih =>
    rw [List.map_cons, storeAll, store_eq, Exec.returns_bind, ih]
    rfl

/-- The first store past the table ends the run. -/
theorem storeAll_past (p : Page U8 count K.size) (hsize : 0 < K.size) (stores : List (Nat × E))
    (h : ∃ s ∈ stores, count ≤ s.1) : K.storeAll p.items stores = .panics .bounds := by
  induction stores generalizing p with
  | nil =>
    obtain ⟨s, hs, -⟩ := h
    exact absurd hs List.not_mem_nil
  | cons s stores ih =>
    by_cases hs : s.1 < count
    · have hrest : ∃ s ∈ stores, count ≤ s.1 := by
        obtain ⟨t, ht, hpast⟩ := h
        rcases List.mem_cons.mp ht with rfl | ht
        · omega
        · exact ⟨t, ht, hpast⟩
      have hstore := K.store_eq p ⟨s.1, hs⟩ s.2
      rw [storeAll, hstore, Exec.returns_bind]
      exact ih _ hrest
    · rw [storeAll, K.store_past p.length_items hsize (Nat.not_lt.mp hs)]
      rfl

/-! ### What a slot shows -/

/-- A slot of any bytes is that of an entry. -/
theorem exists_record (r : Page.Record U8 K.size) : ∃ e, K.record e = r := by
  obtain ⟨qs, hlen, hqs⟩ := exists_qwords r.2
  obtain ⟨e, rfl⟩ := K.qwords_surjective qs hlen
  exact ⟨e, Subtype.ext hqs⟩

variable {Err : Type} {refFromBytes : Nat → List U8 → Except Err E}

/-- The overlay of an entry's own bytes. -/
theorem overlay_record (href : K.RefFromBytes refFromBytes) {addr : Nat} (h : addr % 8 = 0) (e : E) :
    (refFromBytes addr (K.record e).1).toOption = some e := by
  have hback := K.wire.back e
  rw [K.wire.bytes, Exec.returns_bind] at hback
  rw [href addr (K.record e).1 e h (K.record e).2 hback]
  rfl

theorem entryAt_eq (href : K.RefFromBytes refFromBytes) {base : Nat} (h : base % 8 = 0) (p : Page U8 count K.size)
    (i : Fin count) {e : E} (hslot : p.slot i = K.record e) :
    K.entryAt (fun addr bytes => (refFromBytes addr bytes).toOption) base p.items i = .returns (some e) := by
  have haligned : (base + K.size * i) % 8 = 0 := by
    rw [size, Nat.mul_assoc]
    omega
  rw [entryAt, Page.slice_eq, Exec.returns_bind, hslot, K.overlay_record href haligned]
  rfl

/-- Stores into slots that a table has are stores into its page. -/
theorem exists_stores (stores : List (Nat × E)) (h : ∀ s ∈ stores, s.1 < count) :
    ∃ ss : List (Fin count × E), ss.map (fun s => (s.1.val, s.2)) = stores :=
  ⟨stores.attach.map fun s => (⟨s.1.1, h s.1 s.2⟩, s.1.2), by
    rw [List.map_map]
    exact List.attach_map_subtype_val stores⟩

theorem calls_split {stores : List (Fin count × E)} {i : Nat} {e : E} {pre post : List (Nat × E)}
    (h : stores.map (fun s => (s.1.val, s.2)) = pre ++ (i, e) :: post) (hpost : ∀ s ∈ post, s.1 ≠ i) :
    ∃ (hi : i < count) (before after : List (Page.slots U8 count K.size).Call),
      K.calls stores = before ++ ⟨⟨i, hi⟩, K.record e⟩ :: after ∧
        (Page.slots U8 count K.size).Unset ⟨i, hi⟩ after := by
  obtain ⟨before, rest, rfl, -, hrest⟩ := List.map_eq_append_iff.mp h
  obtain ⟨⟨j, e'⟩, after, rfl, hhead, hafter⟩ := List.map_eq_cons_iff.mp hrest
  obtain ⟨rfl, rfl⟩ := Prod.mk.injEq _ _ _ _ ▸ hhead
  refine ⟨j.isLt, K.calls before, K.calls after, by rw [calls, List.map_append]; rfl, fun c hc hj => ?_⟩
  obtain ⟨s, hs, rfl⟩ := List.mem_map.mp hc
  exact hpost _ (hafter ▸ List.mem_map_of_mem hs) (congrArg Fin.val hj).symm

theorem calls_unset {stores : List (Fin count × E)} {i : Fin count}
    (h : ∀ s ∈ stores.map (fun s => (s.1.val, s.2)), s.1 ≠ i.val) :
    (Page.slots U8 count K.size).Unset i (K.calls stores) := by
  intro c hc hi
  obtain ⟨s, hs, rfl⟩ := List.mem_map.mp hc
  exact h _ (List.mem_map_of_mem hs) (congrArg Fin.val hi).symm

theorem holds (hsize : 0 < K.size) (href : K.RefFromBytes refFromBytes) :
    K.Holds fun addr bytes => (refFromBytes addr bytes).toOption := by
  constructor
  · intro base count table stores hbase hlength hstores
    obtain ⟨ss, rfl⟩ := exists_stores stores hstores
    let p : Page U8 count K.size := ⟨table, hlength⟩
    let q := (Page.slots U8 count K.size).run p (K.calls ss)
    have hfaithful := Page.faithful p (K.calls ss)
    refine ⟨q.items, K.storeAll_eq p ss, q.length_items.trans hlength.symm, ?_, ?_, ?_⟩
    · intro i e pre post hsplit hpost
      obtain ⟨hi, before, after, hcalls, hunset⟩ := K.calls_split hsplit hpost
      exact K.entryAt_eq href hbase q ⟨i, hi⟩ (hfaithful.last ⟨i, hi⟩ (K.record e) before after hcalls hunset)
    · intro i hi hnone
      have hslot : q.slot ⟨i, hi⟩ = p.slot ⟨i, hi⟩ := hfaithful.unset ⟨i, hi⟩ (K.calls_unset hnone)
      exact (Page.slice_eq ⟨i, hi⟩ q).trans (hslot ▸ (Page.slice_eq ⟨i, hi⟩ p).symm)
    · intro i hi
      obtain ⟨e, he⟩ := K.exists_record (q.slot ⟨i, hi⟩)
      refine ⟨e, K.entryAt_eq href hbase q ⟨i, hi⟩ he.symm, ?_⟩
      rw [K.wire.bytes]
      exact (Page.slice_eq ⟨i, hi⟩ q).trans (congrArg (fun r => Exec.returns r.1) he.symm)
  · intro count table stores hlength hpast
    let p : Page U8 count K.size := ⟨table, hlength⟩
    exact K.storeAll_past p hsize stores hpast

end Kind

/-! ### The kinds -/

open Intel.Context Amd Amd.Dte

theorem readQword_pair (low high : U64) : readQword ([low, high].flatMap u64ToLe) 0 = .returns low ∧
    readQword ([low, high].flatMap u64ToLe) 8 = .returns high := ⟨readQword_toLe 0 rfl rfl, readQword_toLe 1 rfl rfl⟩

/-- The crate has no encoder of root entries: the record is stored as it lies in memory. -/
def rootEntries : Kind RootEntry where
  qwordCount := 2
  intoBytes e := .returns ([e.low, e.high].flatMap u64ToLe)
  fromBytes := RootEntry.fromBytes
  qwords e := [e.low, e.high]
  wire := by
    refine ⟨fun _ => rfl, fun e => ?_⟩
    obtain ⟨hlow, hhigh⟩ := readQword_pair e.low e.high
    simp only [Exec.returns_bind, RootEntry.fromBytes, hlow, hhigh, Exec.pure_eq]
  length_qwords _ := rfl
  qwords_surjective qs h := by
    match qs, h with
    | [low, high], _ => exact ⟨⟨low, high⟩, rfl⟩

/-- Nor has it one of directory entries. -/
def pasidDirEntries : Kind PasidDirEntry where
  qwordCount := 2
  intoBytes e := .returns ([e.low, e.high].flatMap u64ToLe)
  fromBytes := PasidDirEntry.fromBytes
  qwords e := [e.low, e.high]
  wire := by
    refine ⟨fun _ => rfl, fun e => ?_⟩
    obtain ⟨hlow, hhigh⟩ := readQword_pair e.low e.high
    simp only [Exec.returns_bind, PasidDirEntry.fromBytes, hlow, hhigh, Exec.pure_eq]
  length_qwords _ := rfl
  qwords_surjective qs h := by
    match qs, h with
    | [low, high], _ => exact ⟨⟨low, high⟩, rfl⟩

def contextEntries : Kind ContextEntry where
  qwordCount := 2
  intoBytes := ContextEntry.intoBytes
  fromBytes := ContextEntry.fromBytes
  qwords := ContextEntry.qwords
  wire := ContextEntry.wire
  length_qwords _ := rfl
  qwords_surjective qs h := by
    match qs, h with
    | [q0, q1], _ => exact ⟨⟨q0, q1⟩, rfl⟩

def scalableContextEntries : Kind ScalableContextEntry where
  qwordCount := 4
  intoBytes := ScalableContextEntry.intoBytes
  fromBytes := ScalableContextEntry.fromBytes
  qwords := ScalableContextEntry.qwords
  wire := ScalableContextEntry.wire
  length_qwords _ := rfl
  qwords_surjective qs h := by
    match qs, h with
    | [q0, q1, r0, r1], _ => exact ⟨⟨q0, q1, ⟨r0, r1⟩⟩, rfl⟩

def pasidTableEntries : Kind PasidTableEntry where
  qwordCount := 8
  intoBytes := PasidTableEntry.intoBytes
  fromBytes := PasidTableEntry.fromBytes
  qwords := PasidTableEntry.qwords
  wire := PasidTableEntry.wire
  length_qwords _ := rfl
  qwords_surjective qs h := by
    match qs, h with
    | [q0, q1, q2, q3, h0, h1, h2, h3], _ => exact ⟨⟨q0, q1, q2, q3, ⟨h0, h1, h2, h3⟩⟩, rfl⟩

def deviceTableEntries : Kind DeviceTableEntry where
  qwordCount := 4
  intoBytes := DeviceTableEntry.intoBytes
  fromBytes := DeviceTableEntry.fromBytes
  qwords := DeviceTableEntry.qwords
  wire := DeviceTableEntry.wire
  length_qwords _ := rfl
  qwords_surjective qs h := by
    match qs, h with
    | [q0, q1, q2, q3], _ => exact ⟨⟨q0, q1, q2, q3⟩, rfl⟩

/-- The dwords of an interrupt entry, as they lie in memory. -/
def readIrte (bytes : List U8) : Exec Irte := do
  let low ← readQword bytes 0
  let high ← readQword bytes 8
  return ⟨low.extractLsb' 0 32, low.extractLsb' 32 32, high.extractLsb' 0 32, high.extractLsb' 32 32⟩

/-- Of an interrupt entry there is only the encoder of its words. -/
def irteEntries : Kind Irte where
  qwordCount := 2
  intoBytes e := .returns ([e.words.d0, e.words.d1, e.words.d2, e.words.d3].flatMap u32ToLe)
  fromBytes := readIrte
  qwords e := [e.d1 ++ e.d0, e.d3 ++ e.d2]
  wire := by
    have hbytes : ∀ e : Irte, [e.words.d0, e.words.d1, e.words.d2, e.words.d3].flatMap u32ToLe =
        [e.d1 ++ e.d0, e.d3 ++ e.d2].flatMap u64ToLe := by
      intro e
      simp only [List.flatMap_cons, List.flatMap_nil, List.append_nil, u64ToLe_dwords, List.append_assoc, Irte.words]
    refine ⟨fun e => congrArg Exec.returns (hbytes e), fun e => ?_⟩
    obtain ⟨hlow, hhigh⟩ := readQword_pair (e.d1 ++ e.d0) (e.d3 ++ e.d2)
    rw [hbytes, Exec.returns_bind, readIrte, hlow, Exec.returns_bind, hhigh, Exec.returns_bind, Exec.pure_eq]
    simp only [BitVec.extractLsb'_append_eq_left, BitVec.extractLsb'_append_eq_right]
  length_qwords _ := rfl
  qwords_surjective qs h := by
    match qs, h with
    | [low, high], _ =>
      have hdwords : ∀ q : U64, q.extractLsb' 32 32 ++ q.extractLsb' 0 32 = q := by
        intro q
        rw [BitVec.extractLsb'_append_extractLsb'_eq_extractLsb' (by rfl)]
        exact BitVec.extractLsb'_eq_self
      exact ⟨⟨low.extractLsb' 0 32, low.extractLsb' 32 32, high.extractLsb' 0 32, high.extractLsb' 32 32⟩,
        congrArg₂ (fun a b : U64 => [a, b]) (hdwords low) (hdwords high)⟩

/-- **Tables hold what is stored in them**: after any stores into its slots, each slot of a
table shows the entry that was stored there last, or is as it was, and what any slot shows
is written back as the slot's own bytes. -/
theorem tables_hold {Err : Type} (root : Nat → List U8 → Except Err RootEntry)
    (context : Nat → List U8 → Except Err ContextEntry)
    (scalable : Nat → List U8 → Except Err ScalableContextEntry) (pasid : Nat → List U8 → Except Err PasidTableEntry)
    (device : Nat → List U8 → Except Err DeviceTableEntry) (irte : Nat → List U8 → Except Err Irte)
    (hroot : rootEntries.RefFromBytes root) (hcontext : contextEntries.RefFromBytes context)
    (hscalable : scalableContextEntries.RefFromBytes scalable) (hpasid : pasidTableEntries.RefFromBytes pasid)
    (hdevice : deviceTableEntries.RefFromBytes device) (hirte : irteEntries.RefFromBytes irte) :
    rootEntries.Holds (rootEntry root) ∧
    contextEntries.Holds (contextEntry context) ∧
    scalableContextEntries.Holds (scalableContextEntry scalable) ∧
    pasidTableEntries.Holds (pasidTableEntry pasid) ∧
    (deviceTableEntries.Holds fun addr bytes => (device addr bytes).toOption) ∧
    irteEntries.Holds (Irte.fromBytes irte) :=
  ⟨rootEntries.holds (by decide) hroot, contextEntries.holds (by decide) hcontext,
    scalableContextEntries.holds (by decide) hscalable, pasidTableEntries.holds (by decide) hpasid,
    deviceTableEntries.holds (by decide) hdevice, irteEntries.holds (by decide) hirte⟩

/-- A reader that refuses what is not aligned or not of the right length. -/
def Kind.strictRef {E : Type} (K : Kind E) (addr : Nat) (bytes : List U8) : Except Panic E :=
  if addr % 8 = 0 ∧ bytes.length = K.size then
    match K.fromBytes bytes with
    | .returns e => .ok e
    | .panics p => .error p
  else
    .error .assertion

theorem Kind.strictRef_reads {E : Type} (K : Kind E) : K.RefFromBytes K.strictRef := by
  intro addr bytes e haddr hlength he
  rw [strictRef, if_pos ⟨haddr, hlength⟩, he]

theorem tables_hold_strictly :
    rootEntries.Holds (rootEntry rootEntries.strictRef) ∧
    contextEntries.Holds (contextEntry contextEntries.strictRef) ∧
    scalableContextEntries.Holds (scalableContextEntry scalableContextEntries.strictRef) ∧
    pasidTableEntries.Holds (pasidTableEntry pasidTableEntries.strictRef) ∧
    (deviceTableEntries.Holds fun addr bytes => (deviceTableEntries.strictRef addr bytes).toOption) ∧
    irteEntries.Holds (Irte.fromBytes irteEntries.strictRef) :=
  tables_hold _ _ _ _ _ _ rootEntries.strictRef_reads contextEntries.strictRef_reads
    scalableContextEntries.strictRef_reads pasidTableEntries.strictRef_reads deviceTableEntries.strictRef_reads
    irteEntries.strictRef_reads

end Iommu.Tables
