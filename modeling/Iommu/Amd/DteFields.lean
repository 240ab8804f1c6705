import Iommu.Amd.Dte
import Iommu.Lib.Slots

/-! The host and guest translation part of an entry as a record of fields.

A getter reads its own extents and nothing else (`Field.get_eq_iff`), and no two
fields meet. Every setter but one writes its own extents; the setter of the host
root pointer also writes zeros to what lies above the pointer. So a run of setters
is faithful all along exactly when no field above the pointer is set at any of its
calls to that one setter (`faithful_iff`). -/
namespace Iommu.Amd.Dte
open Lib Lib.Word DeviceTableEntry

/-! ### The fields -/

inductive Field where
  | valid | translationValid | pagingMode | hostPageTableRoot | pprEnable | guestTranslationValid
  | glx | ir | iw | snoopDisable | guestCr3Table | guestDeviceId | guestId
  deriving DecidableEq

namespace Field

def extents : Field → List Extent
  | valid => [⟨.q0, 0, 1⟩]
  | translationValid => [⟨.q0, 1, 1⟩]
  | pagingMode => [⟨.q0, 9, 3⟩]
  | hostPageTableRoot => [⟨.q0, 12, 40⟩]
  | pprEnable => [⟨.q0, 52, 1⟩]
  | guestTranslationValid => [⟨.q0, 55, 1⟩]
  | glx => [⟨.q0, 56, 2⟩]
  | ir => [⟨.q0, 61, 1⟩]
  | iw => [⟨.q0, 62, 1⟩]
  | snoopDisable => [⟨.q1, 38, 1⟩]
  | guestCr3Table => [⟨.q0, 58, 3⟩, ⟨.q1, 16, 16⟩, ⟨.q1, 43, 21⟩]
  | guestDeviceId => [⟨.q3, 16, 16⟩]
  | guestId => [⟨.q3, 32, 16⟩]

/-- No two fields meet. -/
theorem extents_apart (f g : Field) (h : f ≠ g) : ∀ x ∈ f.extents, ∀ y ∈ g.extents, x.Apart y := by
  revert h
  cases f <;> cases g <;> decide

/-- The type that a getter returns and its setter takes. -/
def Val : Field → Type
  | pagingMode => PagingMode
  | hostPageTableRoot => U64
  | glx => U8
  | guestCr3Table => U64
  | guestDeviceId => U16
  | guestId => U16
  | _ => Bool

def get : (f : Field) → DeviceTableEntry → f.Val
  | valid => DeviceTableEntry.valid
  | translationValid => DeviceTableEntry.translationValid
  | pagingMode => DeviceTableEntry.pagingMode
  | hostPageTableRoot => DeviceTableEntry.hostPageTableRoot
  | pprEnable => DeviceTableEntry.pprEnable
  | guestTranslationValid => DeviceTableEntry.guestTranslationValid
  | glx => DeviceTableEntry.glx
  | ir => DeviceTableEntry.ir
  | iw => DeviceTableEntry.iw
  | snoopDisable => DeviceTableEntry.snoopDisable
  | guestCr3Table => DeviceTableEntry.guestCr3Table
  | guestDeviceId => DeviceTableEntry.guestDeviceId
  | guestId => DeviceTableEntry.guestId

def set : (f : Field) → f.Val → DeviceTableEntry → DeviceTableEntry
  | valid => withValid
  | translationValid => withTranslationValid
  | pagingMode => withPagingMode
  | hostPageTableRoot => withHostPageTableRoot
  | pprEnable => withPprEnable
  | guestTranslationValid => withGuestTranslationValid
  | glx => withGlx
  | ir => withIr
  | iw => withIw
  | snoopDisable => withSnoopDisable
  | guestCr3Table => withGuestCr3Table
  | guestDeviceId => withGuestDeviceId
  | guestId => withGuestId

/-- A value masked to its field: the pointers to bits 51:12, `glx` to two bits. -/
def masked : (f : Field) → f.Val → f.Val
  | hostPageTableRoot => fun (v : U64) => v &&& 0x000ffffffffff000#64
  | guestCr3Table => fun (v : U64) => v &&& 0x000ffffffffff000#64
  | glx => fun (v : U8) => v &&& 0x3#8
  | _ => id

/-! ### Getters -/

theorem single_eq_iff {α : Type} {get : DeviceTableEntry → α} {x : Extent} {read : BitVec x.width → α}
    (hget : ∀ e, get e = read (e.slice x)) (hread : Function.Injective read) (e e' : DeviceTableEntry) :
    get e = get e' ↔ ∀ y ∈ [x], e.slice y = e'.slice y := by
  rw [List.forall_mem_singleton, read_eq_iff x hget hread]

/-- The same of a getter that is its extent. -/
theorem whole_eq_iff (x : Extent) {get : DeviceTableEntry → BitVec x.width} (hget : ∀ e, get e = e.slice x)
    (e e' : DeviceTableEntry) : get e = get e' ↔ ∀ y ∈ [x], e.slice y = e'.slice y :=
  single_eq_iff hget Function.injective_id e e'

theorem fromBits_injective : Function.Injective fun v : BitVec 3 => PagingMode.fromBits (v.setWidth 8) := by
  unfold Function.Injective
  decide

theorem guestPointer_injective {a a' : BitVec 3} {b b' : BitVec 16} {c c' : BitVec 21}
    (h : pack 64 (guestPointer a b c) = pack 64 (guestPointer a' b' c')) : a = a' ∧ b = b' ∧ c = c' := by
  have hext : Word.extents (guestPointer a b c) = Word.extents (guestPointer a' b' c') := rfl
  have hlayout := (pack_eq_iff hext (guestPointer_fitting a b c)).mp h
  simp only [guestPointer, List.cons.injEq, Word.Field.mk.injEq, heq_eq_eq, true_and, and_true] at hlayout
  obtain ⟨hc, hb, ha⟩ := hlayout
  exact ⟨ha, hb, hc⟩

theorem guestCr3Table_eq_iff (e e' : DeviceTableEntry) : e.guestCr3Table = e'.guestCr3Table ↔
    ∀ x ∈ guestCr3Table.extents, e.slice x = e'.slice x := by
  simp only [extents, List.forall_mem_cons, List.not_mem_nil, false_imp_iff, implies_true, and_true]
  rw [guestCr3Table_eq, guestCr3Table_eq]
  refine ⟨guestPointer_injective, ?_⟩
  rintro ⟨ha, hb, hc⟩
  rw [ha, hb, hc]

/-- **A getter reads its extents**: it returns the same of two entries exactly when
they agree there. -/
theorem get_eq_iff (f : Field) (e e' : DeviceTableEntry) :
    f.get e = f.get e' ↔ ∀ x ∈ f.extents, e.slice x = e'.slice x := by
  cases f with
  | valid => exact single_eq_iff valid_eq bit_injective e e'
  | translationValid => exact single_eq_iff translationValid_eq bit_injective e e'
  | pagingMode => exact single_eq_iff pagingMode_eq fromBits_injective e e'
  | hostPageTableRoot => exact single_eq_iff hostPageTableRoot_eq (place_injective 12 (by decide)) e e'
  | pprEnable => exact single_eq_iff pprEnable_eq bit_injective e e'
  | guestTranslationValid => exact single_eq_iff guestTranslationValid_eq bit_injective e e'
  | glx => exact single_eq_iff glx_eq (setWidth_injective (by decide)) e e'
  | ir => exact single_eq_iff ir_eq bit_injective e e'
  | iw => exact single_eq_iff iw_eq bit_injective e e'
  | snoopDisable => exact single_eq_iff snoopDisable_eq bit_injective e e'
  | guestCr3Table => exact guestCr3Table_eq_iff e e'
  | guestDeviceId => exact whole_eq_iff ⟨.q3, 16, 16⟩ guestDeviceId_eq e e'
  | guestId => exact whole_eq_iff ⟨.q3, 32, 16⟩ guestId_eq e e'

/-! ### Setters -/

/-- A flag's setter and getter, by the one bit both are about. -/
theorem flag_set {get : DeviceTableEntry → Bool} {set : Bool → DeviceTableEntry → DeviceTableEntry}
    {q : Qword} {lo : Nat} (hget : ∀ e, get e = (e.slice ⟨q, lo, 1⟩).getLsbD 0)
    (hset : ∀ e v, set v e = e.putAt ⟨q, lo, 1⟩ (BitVec.ofBool v)) (hlo : lo + 1 ≤ 64) (v : Bool)
    (e : DeviceTableEntry) : get (set v e) = v := by
  rw [hget, hset, slice_putAt e ⟨q, lo, 1⟩ (BitVec.ofBool v) hlo]
  exact ofBool_bit v

theorem pagingMode_set (mode : PagingMode) (e : DeviceTableEntry) :
    (withPagingMode mode e).pagingMode = mode := by
  rw [pagingMode_eq, withPagingMode_eq, slice_putAt e ⟨.q0, 9, 3⟩ mode.code (by decide)]
  exact mode.fromBits_code

theorem glx_set (glx : U8) (e : DeviceTableEntry) : (withGlx glx e).glx = glx &&& 0x3#8 := by
  have hmask : 0x3#8 = mask 8 0 2 := rfl
  rw [glx_eq, withGlx_eq, slice_putAt e ⟨.q0, 56, 2⟩ _ (by decide), hmask, and_mask_zero, ← setWidth_shift,
    BitVec.ushiftRight_zero]

theorem guestDeviceId_set (id : U16) (e : DeviceTableEntry) :
    (withGuestDeviceId id e).guestDeviceId = id := by
  rw [guestDeviceId_eq, withGuestDeviceId_eq, slice_putAt e ⟨.q3, 16, 16⟩ id (by decide)]

theorem guestId_set (id : U16) (e : DeviceTableEntry) : (withGuestId id e).guestId = id := by
  rw [guestId_eq, withGuestId_eq, slice_putAt e ⟨.q3, 32, 16⟩ id (by decide)]

theorem hostPageTableRoot_set (addr : U64) (e : DeviceTableEntry) :
    (withHostPageTableRoot addr e).hostPageTableRoot = addr &&& 0x000ffffffffff000#64 := by
  rw [hostPageTableRoot_eq, withHostPageTableRoot_eq, slice_putAt _ ⟨.q0, 12, 40⟩ _ (by decide), pointer_eq]

theorem guestCr3Table_set (addr : U64) (e : DeviceTableEntry) :
    (withGuestCr3Table addr e).guestCr3Table = addr &&& 0x000ffffffffff000#64 := by
  have hholds : Holds
      (guestPointer (addr.extractLsb' 12 3) (addr.extractLsb' 15 16) (addr.extractLsb' 31 21)) addr := by
    simp only [guestPointer, holds_cons, holds_nil, and_self]
  have hpack := pack_of_holds (guestPointer_fitting _ _ _) (guestPointer_cover _ _ _) hholds
  rw [← hpack, guestCr3Table_eq, withGuestCr3Table_eq]
  simp (disch := decide) only [slice_putAt, slice_putAt_apart]

/-- **A getter returns what its own setter was given**, masked. -/
theorem get_set (f : Field) (v : f.Val) (e : DeviceTableEntry) : f.get (f.set v e) = f.masked v := by
  cases f with
  | valid => exact flag_set valid_eq withValid_eq (by decide) v e
  | translationValid => exact flag_set translationValid_eq withTranslationValid_eq (by decide) v e
  | pagingMode => exact pagingMode_set v e
  | hostPageTableRoot => exact hostPageTableRoot_set v e
  | pprEnable => exact flag_set pprEnable_eq withPprEnable_eq (by decide) v e
  | guestTranslationValid =>
    exact flag_set guestTranslationValid_eq withGuestTranslationValid_eq (by decide) v e
  | glx => exact glx_set v e
  | ir => exact flag_set ir_eq withIr_eq (by decide) v e
  | iw => exact flag_set iw_eq withIw_eq (by decide) v e
  | snoopDisable => exact flag_set snoopDisable_eq withSnoopDisable_eq (by decide) v e
  | guestCr3Table => exact guestCr3Table_set v e
  | guestDeviceId => exact guestDeviceId_set v e
  | guestId => exact guestId_set v e

/-! ### What a setter writes -/

/-- Bits put at an extent. -/
abbrev Write := Sigma fun x : Extent => BitVec x.width

def puts (e : DeviceTableEntry) (ws : List Write) : DeviceTableEntry := ws.foldl (fun e w => e.putAt w.1 w.2) e

/-- The host root pointer's is the one list that goes past the field's extents. -/
def writes : (f : Field) → f.Val → List Write
  | valid, v => [⟨⟨.q0, 0, 1⟩, BitVec.ofBool v⟩]
  | translationValid, v => [⟨⟨.q0, 1, 1⟩, BitVec.ofBool v⟩]
  | pagingMode, mode => [⟨⟨.q0, 9, 3⟩, PagingMode.code mode⟩]
  | hostPageTableRoot, addr => [⟨⟨.q0, 52, 12⟩, 0#12⟩, ⟨⟨.q0, 12, 40⟩, BitVec.extractLsb' 12 40 addr⟩]
  | pprEnable, v => [⟨⟨.q0, 52, 1⟩, BitVec.ofBool v⟩]
  | guestTranslationValid, v => [⟨⟨.q0, 55, 1⟩, BitVec.ofBool v⟩]
  | glx, v => [⟨⟨.q0, 56, 2⟩, BitVec.extractLsb' 0 2 v⟩]
  | ir, v => [⟨⟨.q0, 61, 1⟩, BitVec.ofBool v⟩]
  | iw, v => [⟨⟨.q0, 62, 1⟩, BitVec.ofBool v⟩]
  | snoopDisable, v => [⟨⟨.q1, 38, 1⟩, BitVec.ofBool v⟩]
  | guestCr3Table, addr => [⟨⟨.q0, 58, 3⟩, BitVec.extractLsb' 12 3 addr⟩,
      ⟨⟨.q1, 16, 16⟩, BitVec.extractLsb' 15 16 addr⟩, ⟨⟨.q1, 43, 21⟩, BitVec.extractLsb' 31 21 addr⟩]
  | guestDeviceId, id => [⟨⟨.q3, 16, 16⟩, id⟩]
  | guestId, id => [⟨⟨.q3, 32, 16⟩, id⟩]

theorem set_eq (f : Field) (v : f.Val) (e : DeviceTableEntry) : f.set v e = puts e (f.writes v) := by
  cases f with
  | valid => exact withValid_eq e v
  | translationValid => exact withTranslationValid_eq e v
  | pagingMode => exact withPagingMode_eq e v
  | hostPageTableRoot => exact withHostPageTableRoot_eq e v
  | pprEnable => exact withPprEnable_eq e v
  | guestTranslationValid => exact withGuestTranslationValid_eq e v
  | glx => exact withGlx_eq e v
  | ir => exact withIr_eq e v
  | iw => exact withIw_eq e v
  | snoopDisable => exact withSnoopDisable_eq e v
  | guestCr3Table => exact withGuestCr3Table_eq e v
  | guestDeviceId => exact withGuestDeviceId_eq e v
  | guestId => exact withGuestId_eq e v

theorem mem_extents_of_writes (f : Field) (hf : f ≠ hostPageTableRoot) (v : f.Val) :
    ∀ w ∈ f.writes v, w.1 ∈ f.extents := by
  cases f with
  | hostPageTableRoot => exact absurd rfl hf
  | guestCr3Table =>
    simp only [writes, extents, List.mem_cons, List.not_mem_nil, or_false]
    rintro w (rfl | rfl | rfl)
    · exact .inl rfl
    · exact .inr (.inl rfl)
    · exact .inr (.inr rfl)
  | _ => exact List.forall_mem_singleton.mpr List.mem_cons_self

theorem slice_puts_apart (e : DeviceTableEntry) (ws : List Write) (y : Extent) (h : ∀ w ∈ ws, w.1.Apart y) :
    (puts e ws).slice y = e.slice y := by
  induction ws generalizing e with
  | nil => rfl
  | cons w ws ih =>
    have htail := ih (e.putAt w.1 w.2) fun u hu => h u (List.mem_cons_of_mem w hu)
    exact htail.trans (slice_putAt_apart e w.1 y w.2 (h w List.mem_cons_self))

/-! ### Framing -/

/-- The extents above the host root pointer. -/
def above : List Extent :=
  [⟨.q0, 52, 1⟩, ⟨.q0, 55, 1⟩, ⟨.q0, 56, 2⟩, ⟨.q0, 58, 3⟩, ⟨.q0, 61, 1⟩, ⟨.q0, 62, 1⟩]

/-- Each of them is part of a field. -/
theorem exists_of_above : ∀ x ∈ above, ∃ g, g ≠ hostPageTableRoot ∧ x ∈ g.extents := by
  simp only [above, List.forall_mem_cons, List.not_mem_nil, false_imp_iff, implies_true, and_true]
  exact ⟨⟨pprEnable, by decide⟩, ⟨guestTranslationValid, by decide⟩, ⟨glx, by decide⟩,
    ⟨guestCr3Table, by decide⟩, ⟨ir, by decide⟩, ⟨iw, by decide⟩⟩

/-- Every other extent of a field is apart from what the host root pointer clears. -/
theorem above_or_apart (g : Field) : ∀ x ∈ g.extents, x ∈ above ∨ Extent.Apart ⟨.q0, 52, 12⟩ x := by
  cases g <;> decide

end Field

/-- No field above the host root pointer is set. -/
def AboveClear (e : DeviceTableEntry) : Prop := ∀ x ∈ Field.above, e.slice x = 0#x.width

instance (e : DeviceTableEntry) : Decidable (AboveClear e) := List.decidableBAll _ _

namespace Field

theorem aboveClear_set (addr : U64) (e : DeviceTableEntry) : AboveClear (withHostPageTableRoot addr e) := by
  have hcleared : ∀ b m, b + m ≤ 12 → (withHostPageTableRoot addr e).slice ⟨.q0, 52 + b, m⟩ = 0#m := by
    intro b m hb
    have hapart : Extent.Apart ⟨.q0, 12, 40⟩ ⟨.q0, 52 + b, m⟩ := .inr (.inl (Nat.le_add_right 52 b))
    rw [withHostPageTableRoot_eq, slice_putAt_apart _ _ _ _ hapart, slice_putAt_zero e .q0 52 b hb (by decide)]
  simp only [AboveClear, above, List.forall_mem_cons, List.not_mem_nil, false_imp_iff, implies_true, and_true]
  exact ⟨hcleared 0 1 (by decide), hcleared 3 1 (by decide), hcleared 4 2 (by decide),
    hcleared 6 3 (by decide), hcleared 9 1 (by decide), hcleared 10 1 (by decide)⟩

/-- A setter that writes its own extents leaves every other field as it was. -/
theorem get_set_of_ne (f g : Field) (hf : f ≠ hostPageTableRoot) (hg : g ≠ f) (v : f.Val)
    (e : DeviceTableEntry) : g.get (f.set v e) = g.get e := by
  rw [get_eq_iff, set_eq]
  intro x hx
  exact slice_puts_apart e (f.writes v) x fun w hw =>
    extents_apart f g hg.symm w.1 (mem_extents_of_writes f hf v w hw) x hx

/-- The setter of the host root pointer does exactly when what it clears is clear. -/
theorem get_root_iff (addr : U64) (e : DeviceTableEntry) :
    (∀ g, g ≠ hostPageTableRoot → g.get (withHostPageTableRoot addr e) = g.get e) ↔ AboveClear e := by
  constructor
  · intro h x hx
    obtain ⟨g, hg, hxg⟩ := exists_of_above x hx
    have hsame := (get_eq_iff g _ e).mp (h g hg) x hxg
    exact hsame.symm.trans (aboveClear_set addr e x hx)
  · intro hclear g hg
    refine (get_eq_iff g _ e).mpr fun x hx => ?_
    rcases above_or_apart g x hx with hxa | hapart
    · exact (aboveClear_set addr e x hxa).trans (hclear x hxa).symm
    · have hroot := extents_apart hostPageTableRoot g hg.symm _ List.mem_cons_self x hx
      rw [withHostPageTableRoot_eq, slice_putAt_apart _ _ _ _ hroot, slice_putAt_apart _ _ _ _ hapart]

end Field

/-! ### Runs -/

/-- An entry as a record of the thirteen fields. -/
def fields : Slots DeviceTableEntry Field where
  Val := Field.Val
  get := Field.get
  set := Field.set
  kept := Field.masked
  get_set := Field.get_set

theorem fields_frames_iff (e : DeviceTableEntry) (c : fields.Call) :
    fields.Frames e c ↔ (c.1 = .hostPageTableRoot → AboveClear e) := by
  obtain ⟨f, v⟩ := c
  by_cases hf : f = .hostPageTableRoot
  · subst hf
    rw [Slots.Frames, forall_prop_of_true rfl]
    exact Field.get_root_iff v e
  · exact ⟨fun _ h => absurd h hf, fun _ g hg => Field.get_set_of_ne f g hf hg v e⟩

/-- **Which runs are faithful all along**: those that call the setter of the host root
pointer only while no field above the pointer is set. -/
theorem faithful_iff (e : DeviceTableEntry) (calls : List fields.Call) :
    (∀ p, p <+: calls → fields.Faithful e p) ↔
      ∀ p addr, p ++ [⟨.hostPageTableRoot, addr⟩] <+: calls → AboveClear (fields.run e p) := by
  rw [fields.faithful_iff_frames]
  simp only [fields_frames_iff]
  constructor
  · intro h p addr hp
    exact h p ⟨.hostPageTableRoot, addr⟩ hp rfl
  · rintro h p ⟨f, v⟩ hp hf
    obtain rfl : f = .hostPageTableRoot := hf
    exact h p v hp

/-- A root pointer that is set last takes the flag above it. -/
theorem root_clears_pprEnable :
    ¬∀ (e : DeviceTableEntry) (calls : List fields.Call), fields.Faithful e calls := by
  intro h
  have hlast := (h .new [⟨.pprEnable, true⟩, ⟨.hostPageTableRoot, 0x1000#64⟩]).last .pprEnable true []
    [⟨.hostPageTableRoot, 0x1000#64⟩] rfl fun c hc => by
      rw [List.mem_singleton.mp hc]
      decide
  have hlost : (withHostPageTableRoot 0x1000#64 (withPprEnable true .new)).pprEnable = true := hlast
  exact absurd hlost (by decide)

end Iommu.Amd.Dte
