import Iommu.Linked
import Iommu.Amd.DteDomain
import Iommu.Intel.Capabilities
import Iommu.Intel.RegsFields
import Iommu.PageTables.Refinement

/-! Devices and the domains that they are attached to.

A request comes from a device, and its tables say how it is translated: the device's slot
of a device table, or the slot of its bus in the root table and the slot of its function in
the context table that is named there. All of these are stored into while the page tables
of all domains are updated. What a device then reaches is found as the other side finds it:
the overlay of the slot gives an entry, the entry gives a root and a number of levels, and
the walk from there answers every address as the domain of the last attachment has it
(`requests_translated`, `amd_devices_translated`). -/
namespace Iommu.Devices
open Lib PageTables Tables Linked

/-! ### Context entries -/

section Contexts
open Intel.Context
variable {D : Type} (S : Domains D)

abbrev ContextCall := ContextEntry.record.slots.Call

def buildContext (calls : List ContextCall) : ContextEntry := ContextEntry.record.slots.run .new calls

/-- The calls of a builder that name a domain: the last of each kind of them. -/
structure ContextNames (d : D) (calls : List ContextCall) : Prop where
  present : ContextEntry.record.slots.LastSet .present true calls
  translationType : ContextEntry.record.slots.LastSet .translationType .secondStage calls
  secondStagePtr : ContextEntry.record.slots.LastSet .secondStagePtr (S.root d) calls
  addressWidth : ∃ aw : AddrWidth, ContextEntry.record.slots.LastSet .addressWidth aw calls ∧
    aw.addressBits = 12 + 9 * S.levels d

theorem page_of_aligned {a : U64} (h : Aligned a) : a &&& ~~~0xfff#64 = a := by
  rw [← place_page]
  exact (Word.place_eq_iff_of_fits 12 _ a (by decide)).mpr ⟨h, a.isLt, rfl⟩

/-- A width that an entry can have is read as it was written. -/
theorem addressBits_kept {aw : AddrWidth} (h : 0 < aw.addressBits) : AddrWidth.fromBits aw.bits = aw := by
  cases aw with
  | agaw39 => rfl
  | agaw48 => rfl
  | agaw57 => rfl
  | reserved0 => exact absurd h (by decide)
  | reserved v => exact absurd h (Nat.lt_irrefl 0)

/-- An entry through which a device reaches what a domain has. -/
structure ContextReaches (A : Space S) (pages : U64 → U64) (d : D) (e : ContextEntry) : Prop where
  present : e.present = true
  translationType : e.translationType = .secondStage
  translates : ∃ levels, e.addressWidth.addressBits = 12 + 9 * levels ∧
    Translates secondStage A d levels fun vaddr =>
      Intel.PageTables.walk .second levels e.secondStagePtr vaddr pages

variable {S} [DecidableEq D]

theorem buildContext_reaches {mem : U64 → U64} (hempty : EmptyRoots S mem)
    {us : List (Update S Intel.PageTables.Perm)} (hrun : AllowedRun secondStage mem us) {d : D}
    {calls : List ContextCall} (h : ContextNames S d calls) :
    ContextReaches S (spaceAfter secondStage (Space.empty S) us) (run secondStage mem us) d (buildContext calls) := by
  have hfaithful := ContextEntry.record.independent.faithful .new calls
  have hpointer : (buildContext calls).secondStagePtr = S.root d &&& ~~~0xfff#64 :=
    hfaithful.get_last h.secondStagePtr
  obtain ⟨aw, hlast, hbits⟩ := h.addressWidth
  have hkept : (buildContext calls).addressWidth = AddrWidth.fromBits aw.bits := hfaithful.get_last hlast
  rw [addressBits_kept (by omega)] at hkept
  rw [page_of_aligned (S.root_aligned d)] at hpointer
  exact {
    present := hfaithful.get_last h.present
    translationType := hfaithful.get_last h.translationType
    translates := ⟨S.levels d, hkept ▸ hbits, translates_run _ hempty hrun hpointer rfl⟩ }

end Contexts

/-! ### Requests of functions -/

section Requests
open Intel.Context Intel.Regs
variable {Err : Type} (rootRef : Nat → List U8 → Except Err RootEntry)
  (contextRef : Nat → List U8 → Except Err ContextEntry)

/-- The context table that a root entry names. -/
def contextTableOf (e : RootEntry) : Option U64 := if e.present then some e.contextTable else none

/-- The entry that a request is translated with, in legacy mode. -/
def lookup {M : Type} (r : Rtaddr) (m : Memory M) (bus devfn : Nat) : Exec (Option ContextEntry) :=
  if r.tableMode = .legacy then
    find rootEntries contextEntries (rootEntry rootRef) (contextEntry contextRef) contextTableOf r.tableBase.toNat m bus
      devfn
  else
    return none

theorem tableBase_aligned (r : Rtaddr) : r.tableBase.toNat % 8 = 0 := by
  have hpage := ((extract_page_iff r.value r.tableBase).mp rfl).1
  omega

theorem page_aligned (a : U64) : (a &&& ~~~0xfff#64).toNat % 8 = 0 := by
  rw [← place_page, Word.toNat_place 12 _ (by decide)]
  omega

theorem contextTableOf_new (a : U64) : contextTableOf (.new a) = some (a &&& ~~~0xfff#64) := by
  obtain ⟨hpresent, htable⟩ := RootEntry.new_names a
  rw [contextTableOf, if_pos hpresent, htable]

theorem contextTableOf_absent {e : RootEntry} (h : e.present = false) : contextTableOf e = none :=
  if_neg (Bool.eq_false_iff.mp h)

end Requests

open Intel.Context Intel.Regs in
/-- **A request reaches the domain of its device**: after any run in which buses are given
context tables, entries are stored in them and page tables updated, a request whose bus was
last given a table, in which its function was last given to a domain, is answered as that
domain's address space has it; a request of a bus whose root entry is not present finds
nothing. -/
theorem requests_translated {Err D : Type} [DecidableEq D] (rootRef : Nat → List U8 → Except Err RootEntry)
    (contextRef : Nat → List U8 → Except Err ContextEntry) (hrootRef : rootEntries.RefFromBytes rootRef)
    (hcontextRef : contextEntries.RefFromBytes contextRef) (S : Domains D) (r : Rtaddr)
    (hmode : r.tableMode = .legacy) (m : Memory (U64 → U64)) (hroots : m.upper.length = 4096)
    (hcontexts : ∀ a, (m.lower a).length = 4096) (hempty : EmptyRoots S m.rest)
    (steps : List (Step RootEntry ContextEntry (Update S Intel.PageTables.Perm)))
    (hslots : ∀ s ∈ steps, s.Inside (entriesPerPage rootEntries.size) fun _ => entriesPerPage contextEntries.size)
    (hrun : AllowedRun secondStage m.rest (updates steps)) :
    ∃ after, runSteps rootEntries contextEntries (fun mem u => u.apply secondStage mem) m steps = .returns after ∧
      (∀ bus devfn table d calls, LastUpper bus (.new table) steps →
        LastLower (table &&& ~~~0xfff#64) devfn (buildContext calls) steps → ContextNames S d calls →
        ∃ e, lookup rootRef contextRef r after bus devfn = .returns (some e) ∧
          ContextReaches S (spaceAfter secondStage (Space.empty S) (updates steps)) after.rest d e) ∧
      (∀ bus devfn e, LastUpper bus e steps → e.present = false →
        lookup rootRef contextRef r after bus devfn = .returns none) ∧
      ∀ bus devfn, bus < entriesPerPage rootEntries.size → (∀ e, .upper bus e ∉ steps) →
        (∀ e, rootEntries.entryAt (rootEntry rootRef) r.tableBase.toNat m.upper bus = .returns (some e) →
          e.present = false) → lookup rootRef contextRef r after bus devfn = .returns none := by
  obtain ⟨after, hafter, hshown⟩ := run_shows rootEntries contextEntries (fun mem u => u.apply secondStage mem)
    (by decide) (by decide) hrootRef hcontextRef m hroots hcontexts steps hslots
  have hlegacy : ∀ bus devfn, lookup rootRef contextRef r after bus devfn = find rootEntries contextEntries
      (rootEntry rootRef) (contextEntry contextRef) contextTableOf r.tableBase.toNat after bus devfn :=
    fun _ _ => if_pos hmode
  have hbase := tableBase_aligned r
  refine ⟨after, hafter, fun bus devfn table d calls hroot hcontext hnames => ⟨buildContext calls, ?_, ?_⟩,
    fun bus devfn e hroot hpresent => ?_, fun bus devfn hbus hnone habsent => ?_⟩
  · rw [hlegacy]
    exact hshown.find_last hbase hroot (contextTableOf_new table) (page_aligned table) hcontext
  · rw [hshown.rest, ← run_eq_foldl]
    exact buildContext_reaches hempty hrun hnames
  · rw [hlegacy]
    exact hshown.find_none hbase hroot (contextTableOf_absent hpresent)
  · rw [hlegacy]
    exact hshown.find_kept hbase hbus hnone fun e he => contextTableOf_absent (habsent e he)

/-- Two domains, of four levels each. -/
def fourLevels : Domains Bool where
  root d := if d then 0x2000#64 else 0x1000#64
  levels _ := 4
  levels_pos _ := by decide
  levels_le _ := by decide
  root_aligned d := by cases d <;> rfl
  root_injective d d' h := by
    revert d d'
    decide

def fourIova (d : Bool) : Iova fourLevels := ⟨d, 0x5123#64, by cases d <;> decide⟩

theorem fourLevels_empty : EmptyRoots fourLevels fun _ => 0#64 := fun _ _ _ => BitVec.getLsbD_zero

/-- A table is linked into one of them. -/
def fourLink {Q : Type} (d : Bool) : Update fourLevels Q := .link (fourIova d) 3 0x3000#64 fun _ => 0#64

theorem fourLink_allowed {Q : Type} (d : Bool) : (fourLink d : Update fourLevels Q).Allowed fun _ => 0#64 := by
  have hreaches : (fourIova d).Reaches (fun _ => 0#64) 4 :=
    ⟨by decide, Nat.le_refl 4, fun _ hl hle => absurd hl (Nat.not_lt.mpr hle)⟩
  refine ⟨by decide, hreaches, rfl, by decide, fun k m hk => ?_, fun _ _ => rfl, fun _ _ h => absurd h (by decide)⟩
  rw [fourLevels_empty.table hk]
  exact (by decide : ∀ d : Bool, fourLevels.root d ≠ 0x3000#64) k.domain

def contextCalls (d : Bool) : List ContextCall :=
  [⟨.secondStagePtr, fourLevels.root d⟩, ⟨.addressWidth, Intel.Context.AddrWidth.agaw48⟩,
    ⟨.translationType, Intel.Context.TransType.secondStage⟩, ⟨.present, true⟩]

theorem contextCalls_name (d : Bool) : ContextNames fourLevels d (contextCalls d) where
  present := ⟨(contextCalls d).take 3, [], rfl, by unfold Slots.Unset; decide⟩
  translationType := ⟨(contextCalls d).take 2, (contextCalls d).drop 3, rfl, by
    cases d <;> (unfold Slots.Unset; decide)⟩
  secondStagePtr := ⟨[], (contextCalls d).drop 1, rfl, by cases d <;> (unfold Slots.Unset; decide)⟩
  addressWidth := ⟨.agaw48, ⟨(contextCalls d).take 1, (contextCalls d).drop 2, rfl, by
    cases d <;> (unfold Slots.Unset; decide)⟩, rfl⟩

/-- A function goes from one domain to another while its bus has a context table. -/
def rerouted : List (Step Intel.Context.RootEntry Intel.Context.ContextEntry (Update fourLevels Intel.PageTables.Perm)) :=
  [.upper 0 (.new 0x8000#64), .lower 0x8000#64 1 (buildContext (contextCalls true)), .other (fourLink false),
    .lower 0x8000#64 1 (buildContext (contextCalls false))]

theorem rerouted_inside : ∀ s ∈ rerouted, s.Inside (Intel.Context.entriesPerPage rootEntries.size) fun _ =>
    Intel.Context.entriesPerPage contextEntries.size := by
  simp only [rerouted, List.forall_mem_cons, Step.Inside]
  exact ⟨by decide, by decide, trivial, by decide, fun _ h => absurd h List.not_mem_nil⟩

theorem rerouted_translated :
    ∃ after, runSteps rootEntries contextEntries (fun mem u => u.apply secondStage mem)
        ⟨List.replicate 4096 0#8, fun _ => List.replicate 4096 0#8, fun _ => 0#64⟩ rerouted = .returns after ∧
      ∃ e, lookup rootEntries.strictRef contextEntries.strictRef ⟨0x7000#64⟩ after 0 1 = .returns (some e) ∧
        ContextReaches fourLevels (spaceAfter secondStage (Space.empty fourLevels) [fourLink false]) after.rest
          false e := by
  obtain ⟨after, hafter, hreaches, -⟩ := requests_translated rootEntries.strictRef contextEntries.strictRef
    rootEntries.strictRef_reads contextEntries.strictRef_reads fourLevels ⟨0x7000#64⟩ rfl
    ⟨List.replicate 4096 0#8, fun _ => List.replicate 4096 0#8, fun _ => 0#64⟩ List.length_replicate
    (fun _ => List.length_replicate) fourLevels_empty rerouted rerouted_inside ⟨fourLink_allowed false, trivial⟩
  exact ⟨after, hafter, hreaches 0 1 0x8000#64 false _ ⟨[], rerouted.drop 1, rfl, by simp [rerouted]⟩
    ⟨rerouted.take 3, [], rfl, fun _ => List.not_mem_nil⟩ (contextCalls_name false)⟩

/-! ### Device table entries -/

section Amd
open Amd.Dte
variable {D : Type} (S : Domains D)

/-- A call of any setter of an entry. -/
inductive EntryCall where
  | field : fields.Call → EntryCall
  | tag : TagCall → EntryCall
  | ioCoherent : Bool → EntryCall
  | guestPagingMode : U8 → EntryCall

def EntryCall.apply (e : DeviceTableEntry) : EntryCall → DeviceTableEntry
  | field c => fields.call e c
  | tag c => c.apply e
  | ioCoherent coherent => e.withIoCoherent coherent
  | guestPagingMode mode => e.withGuestPagingMode mode

def buildEntry (calls : List EntryCall) : DeviceTableEntry := calls.foldl EntryCall.apply .new

def EntryCall.sets : EntryCall → Option Field
  | field c => some c.1
  | _ => none

/-- The last call to a field gives it this value. -/
def LastField (f : Field) (v : f.Val) (calls : List EntryCall) : Prop :=
  ∃ before after, calls = before ++ .field ⟨f, v⟩ :: after ∧ ∀ c ∈ after, c.sets ≠ some f

/-- The fields that say how the requests of a device are translated. -/
def translation : List Field := [.valid, .translationValid, .pagingMode, .hostPageTableRoot]

theorem get_of_q0 {f : Field} (hf : f ∈ translation) {e e' : DeviceTableEntry} (h : e.q0 = e'.q0) :
    f.get e = f.get e' := by
  refine (Field.get_eq_iff f e e').mpr fun x hx => ?_
  have hq0 : x.qword = .q0 := by
    revert x
    simp only [translation, List.mem_cons, List.not_mem_nil, or_false] at hf
    rcases hf with rfl | rfl | rfl | rfl <;> decide
  obtain ⟨q, lo, width⟩ := x
  obtain rfl : q = .q0 := hq0
  exact congrArg (·.extractLsb' lo width) h

/-- They lie below what the setter of the root pointer clears. -/
theorem translation_below {f : Field} (hf : f ∈ translation) : ∀ x ∈ f.extents, Extent.Apart ⟨.q0, 52, 12⟩ x := by
  revert f
  decide

theorem get_withHostPageTableRoot {f : Field} (hf : f ∈ translation) (hne : f ≠ .hostPageTableRoot) (addr : U64)
    (e : DeviceTableEntry) : f.get (e.withHostPageTableRoot addr) = f.get e := by
  refine (Field.get_eq_iff f _ e).mpr fun x hx => ?_
  have hroot := Field.extents_apart .hostPageTableRoot f hne.symm _ List.mem_cons_self x hx
  rw [DeviceTableEntry.withHostPageTableRoot_eq, DeviceTableEntry.slice_putAt_apart _ _ _ _ hroot,
    DeviceTableEntry.slice_putAt_apart _ _ _ _ (translation_below hf x hx)]

/-- Every setter but its own keeps a field of the translation. -/
theorem translation_kept {f : Field} (hf : f ∈ translation) {c : EntryCall} (hc : c.sets ≠ some f)
    (e : DeviceTableEntry) : f.get (c.apply e) = f.get e := by
  cases c with
  | field c =>
    obtain ⟨g, v⟩ := c
    have hne : f ≠ g := fun h => hc (congrArg some h.symm)
    by_cases hg : g = .hostPageTableRoot
    · subst hg
      exact get_withHostPageTableRoot hf hne v e
    · exact Field.get_set_of_ne g f hg hne v e
  | tag c => exact get_of_q0 hf (by cases c <;> rfl)
  | ioCoherent coherent => exact get_of_q0 hf rfl
  | guestPagingMode mode => exact get_of_q0 hf rfl

/-- So it is what its own setter was last given. -/
theorem get_buildEntry {f : Field} (hf : f ∈ translation) {v : f.Val} {calls : List EntryCall}
    (h : LastField f v calls) : f.get (buildEntry calls) = f.masked v := by
  obtain ⟨before, after, rfl, hafter⟩ := h
  have hkept : ∀ (e : DeviceTableEntry) (cs : List EntryCall), (∀ c ∈ cs, c.sets ≠ some f) →
      f.get (cs.foldl EntryCall.apply e) = f.get e := by
    intro e cs hcs
    induction cs generalizing e with
    | nil => rfl
    | cons c cs ih =>
      obtain ⟨hc, hrest⟩ := List.forall_mem_cons.mp hcs
      rw [List.foldl_cons, ih _ hrest, translation_kept hf hc]
  rw [buildEntry, List.foldl_append, List.foldl_cons, hkept _ after hafter]
  exact Field.get_set f v _

/-- The levels of a v2 mode. -/
def V2Levels (mode : PagingMode) (levels : Nat) : Prop :=
  mode = .level2_4 ∧ levels = 4 ∨ mode = .level2_5 ∧ levels = 5

theorem V2Levels.translates {mode : PagingMode} {levels : Nat} (h : V2Levels mode levels) :
    mode.translates = true := by
  rcases h with ⟨rfl, -⟩ | ⟨rfl, -⟩ <;> rfl

/-- The calls of a builder that name a domain. -/
structure EntryNames (d : D) (calls : List EntryCall) : Prop where
  valid : LastField .valid true calls
  translationValid : LastField .translationValid true calls
  pagingMode : ∃ mode : PagingMode, LastField .pagingMode mode calls ∧ V2Levels mode (S.levels d)
  hostPageTableRoot : LastField .hostPageTableRoot (S.root d) calls
  root_fits : (S.root d).toNat < 2 ^ 52

/-- An entry through which a device reaches what a domain has. -/
structure EntryReaches (A : Space S) (pages : U64 → U64) (d : D) (e : DeviceTableEntry) : Prop where
  valid : e.valid = true
  translationValid : e.translationValid = true
  mode : e.pagingMode.translates = true
  translates : ∃ levels, V2Levels e.pagingMode levels ∧
    Translates version2 A d levels fun iova => Amd.PageTables.walk .v2 levels e.hostPageTableRoot iova pages

variable {S} [DecidableEq D]

theorem buildEntry_reaches {mem : U64 → U64} (hempty : EmptyRoots S mem) {us : List (Update S (Bool × Bool))}
    (hrun : AllowedRun version2 mem us) {d : D} {calls : List EntryCall} (h : EntryNames S d calls) :
    EntryReaches S (spaceAfter version2 (Space.empty S) us) (run version2 mem us) d (buildEntry calls) := by
  have hroot : (buildEntry calls).hostPageTableRoot = S.root d &&& paMask :=
    get_buildEntry (by decide) h.hostPageTableRoot
  rw [(S.root_aligned d).and_paMask h.root_fits] at hroot
  obtain ⟨mode, hlast, hlevels⟩ := h.pagingMode
  have hmode : (buildEntry calls).pagingMode = mode := get_buildEntry (by decide) hlast
  exact {
    valid := get_buildEntry (by decide) h.valid
    translationValid := get_buildEntry (by decide) h.translationValid
    mode := hmode ▸ hlevels.translates
    translates := ⟨S.levels d, hmode ▸ hlevels, translates_run _ hempty hrun hroot rfl⟩ }

end Amd

open Amd Amd.Dte in
/-- **A device reaches its domain**, of version 2 tables: the order of its setters does
not matter to it, whatever the setter of the root pointer clears, nor do the tables of
interrupts. -/
theorem amd_devices_translated {Err D : Type} [DecidableEq D] (deviceRef : Nat → List U8 → Except Err DeviceTableEntry)
    (irteRef : Nat → List U8 → Except Err Irte) (hdeviceRef : deviceTableEntries.RefFromBytes deviceRef)
    (hirteRef : irteEntries.RefFromBytes irteRef) (S : Domains D) (base : Nat) (hbase : base % 8 = 0)
    (n : Nat) (count : U64 → Nat) (m : Memory (U64 → U64)) (hdevices : m.upper.length = deviceTableEntries.size * n)
    (hirtes : ∀ a, (m.lower a).length = irteEntries.size * count a) (hempty : EmptyRoots S m.rest)
    (steps : List (Step DeviceTableEntry Irte (Update S (Bool × Bool)))) (hslots : ∀ s ∈ steps, s.Inside n count)
    (hrun : AllowedRun version2 m.rest (updates steps)) :
    ∃ after, runSteps deviceTableEntries irteEntries (fun mem u => u.apply version2 mem) m steps = .returns after ∧
      ∀ i d calls, LastUpper i (buildEntry calls) steps → EntryNames S d calls →
        ∃ e, deviceTableEntries.entryAt (fun addr bytes => (deviceRef addr bytes).toOption) base after.upper i =
            .returns (some e) ∧
          EntryReaches S (spaceAfter version2 (Space.empty S) (updates steps)) after.rest d e := by
  obtain ⟨after, hafter, hshown⟩ := run_shows deviceTableEntries irteEntries (fun mem u => u.apply version2 mem)
    (by decide) (by decide) hdeviceRef hirteRef m hdevices hirtes steps hslots
  refine ⟨after, hafter, fun i d calls hlast hnames => ⟨buildEntry calls, hshown.upper base i _ hbase hlast, ?_⟩⟩
  rw [hshown.rest, ← run_eq_foldl]
  exact buildEntry_reaches hempty hrun hnames

/-- The root pointer is set last. -/
def entryCalls (d : Bool) : List EntryCall :=
  [.field ⟨.valid, true⟩, .field ⟨.translationValid, true⟩, .field ⟨.pagingMode, Amd.Dte.PagingMode.level2_4⟩,
    .tag (.domainId 7#16), .field ⟨.pprEnable, true⟩, .field ⟨.hostPageTableRoot, fourLevels.root d⟩]

theorem entryCalls_name (d : Bool) : EntryNames fourLevels d (entryCalls d) where
  valid := ⟨[], (entryCalls d).drop 1, rfl, by cases d <;> decide⟩
  translationValid := ⟨(entryCalls d).take 1, (entryCalls d).drop 2, rfl, by cases d <;> decide⟩
  pagingMode := ⟨.level2_4, ⟨(entryCalls d).take 2, (entryCalls d).drop 3, rfl, by cases d <;> decide⟩,
    .inl ⟨rfl, rfl⟩⟩
  hostPageTableRoot := ⟨(entryCalls d).take 5, [], rfl, by decide⟩
  root_fits := by cases d <;> decide

/-- A device is attached to one domain and then to the other. -/
def reattached : List (Step Amd.Dte.DeviceTableEntry Amd.Irte (Update fourLevels (Bool × Bool))) :=
  [.upper 1 (buildEntry (entryCalls true)), .other (fourLink false), .upper 1 (buildEntry (entryCalls false))]

theorem reattached_inside : ∀ s ∈ reattached, s.Inside 2 fun _ => 0 := by
  simp only [reattached, List.forall_mem_cons, Step.Inside]
  exact ⟨by decide, trivial, by decide, fun _ h => absurd h List.not_mem_nil⟩

theorem amd_reattached_translated :
    ∃ after, runSteps deviceTableEntries irteEntries (fun mem u => u.apply version2 mem)
        ⟨List.replicate 64 0#8, fun _ => [], fun _ => 0#64⟩ reattached = .returns after ∧
      ∃ e, deviceTableEntries.entryAt (fun addr bytes => (deviceTableEntries.strictRef addr bytes).toOption) 0x7000
          after.upper 1 = .returns (some e) ∧
        EntryReaches fourLevels (spaceAfter version2 (Space.empty fourLevels) [fourLink false]) after.rest false e := by
  obtain ⟨after, hafter, hreaches⟩ := amd_devices_translated deviceTableEntries.strictRef irteEntries.strictRef
    deviceTableEntries.strictRef_reads irteEntries.strictRef_reads fourLevels 0x7000 rfl 2 (fun _ => 0)
    ⟨List.replicate 64 0#8, fun _ => [], fun _ => 0#64⟩ rfl (fun _ => rfl) fourLevels_empty reattached
    reattached_inside ⟨fourLink_allowed false, trivial⟩
  exact ⟨after, hafter, hreaches 1 false _ ⟨reattached.take 2, [], rfl, fun _ => List.not_mem_nil⟩
    (entryCalls_name false)⟩

end Iommu.Devices
