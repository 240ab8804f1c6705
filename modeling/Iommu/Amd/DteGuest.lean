import Iommu.Amd.DteFields

/-! The guest root pointer of an entry.

Its forty address bits are kept in three parts, one in `q0` and two in `q1`. A list of
writes ends in the same entry from any two entries that agree off it (`puts_congr`), so
a setter that is called again leaves nothing of the first call (`Field.set_set`). -/
namespace Iommu.Amd.Dte
open Lib.Word DeviceTableEntry

namespace Extent

def Covers (x : Extent) (q : Qword) (i : Nat) : Prop := q = x.qword ∧ x.lo ≤ i ∧ i < x.lo + x.width

instance (x : Extent) (q : Qword) (i : Nat) : Decidable (x.Covers q i) := instDecidableAnd

end Extent

/-- The entries have the same bits off the extents. -/
def AgreeOff (xs : List Extent) (e e' : DeviceTableEntry) : Prop :=
  ∀ q i, i < 64 → (∀ x ∈ xs, ¬x.Covers q i) → (e.qword q).getLsbD i = (e'.qword q).getLsbD i

theorem getLsbD_putAt (e : DeviceTableEntry) (x : Extent) (v : BitVec x.width) (q : Qword) {i : Nat} (hi : i < 64) :
    ((e.putAt x v).qword q).getLsbD i =
      if x.Covers q i then v.getLsbD (i - x.lo) else (e.qword q).getLsbD i := by
  rw [qword_putAt]
  by_cases hq : q = x.qword
  · rw [if_pos hq, getLsbD_put x.lo i v _ hi]
    simp only [Extent.Covers, hq, true_and]
  · rw [if_neg hq, if_neg fun h : x.Covers q i => hq h.1]

theorem eq_of_agreeOff_nil {e e' : DeviceTableEntry} (h : AgreeOff [] e e') : e = e' := by
  have hqword : ∀ q, e.qword q = e'.qword q := fun q => by
    apply BitVec.eq_of_getLsbD_eq
    intro i hi
    exact h q i hi fun x hx => absurd hx List.not_mem_nil
  cases e
  cases e'
  rw [DeviceTableEntry.mk.injEq]
  exact ⟨hqword .q0, hqword .q1, hqword .q2, hqword .q3⟩

theorem AgreeOff.getLsbD {xs : List Extent} {e e' : DeviceTableEntry} (h : AgreeOff xs e e') (q : Qword) (i : Nat)
    (hoff : ∀ x ∈ xs, ¬x.Covers q i) : (e.qword q).getLsbD i = (e'.qword q).getLsbD i := by
  by_cases hi : i < 64
  · exact h q i hi hoff
  · rw [BitVec.getLsbD_of_ge _ i (Nat.not_lt.mp hi), BitVec.getLsbD_of_ge _ i (Nat.not_lt.mp hi)]

namespace Field

/-- What was at the writes before them does not matter. -/
theorem puts_congr (ws : List Write) {e e' : DeviceTableEntry} (h : AgreeOff (ws.map Sigma.fst) e e') :
    puts e ws = puts e' ws := by
  induction ws generalizing e e' with
  | nil => exact eq_of_agreeOff_nil h
  | cons w ws ih =>
    refine ih fun q i hi hoff => ?_
    rw [getLsbD_putAt e w.1 w.2 q hi, getLsbD_putAt e' w.1 w.2 q hi]
    split
    case isTrue => rfl
    case isFalse hw => exact h q i hi (List.forall_mem_cons.mpr ⟨hw, hoff⟩)

/-- No bit off the writes changes. -/
theorem puts_agreeOff (ws : List Write) (e : DeviceTableEntry) : AgreeOff (ws.map Sigma.fst) (puts e ws) e := by
  induction ws generalizing e with
  | nil => exact fun q i _ _ => rfl
  | cons w ws ih =>
    intro q i hi hoff
    obtain ⟨hw, hws⟩ := List.forall_mem_cons.mp hoff
    exact (ih (e.putAt w.1 w.2) q i hi hws).trans ((getLsbD_putAt e w.1 w.2 q hi).trans (if_neg hw))

/-- A setter writes the same extents whatever it is given. -/
theorem writes_extents (f : Field) (v v' : f.Val) : (f.writes v).map Sigma.fst = (f.writes v').map Sigma.fst := by
  cases f <;> rfl

/-- **The second of two calls wins.** -/
theorem set_set (f : Field) (v v' : f.Val) (e : DeviceTableEntry) : f.set v' (f.set v e) = f.set v' e := by
  rw [set_eq f v' (f.set v e), set_eq f v' e, set_eq f v e]
  apply puts_congr
  rw [writes_extents f v' v]
  exact puts_agreeOff (f.writes v) e

theorem guestCr3Table_agreeOff (addr : U64) (e : DeviceTableEntry) :
    AgreeOff guestCr3Table.extents (withGuestCr3Table addr e) e := by
  rw [withGuestCr3Table_eq]
  exact puts_agreeOff (guestCr3Table.writes addr) e

/-- A bit is off the three parts. -/
theorem guestCr3Table_off {q : Qword} {i : Nat} : (∀ x ∈ guestCr3Table.extents, ¬x.Covers q i) ↔
    ¬(q = .q0 ∧ 58 ≤ i ∧ i < 61) ∧ ¬(q = .q1 ∧ 16 ≤ i ∧ i < 32) ∧ ¬(q = .q1 ∧ 43 ≤ i ∧ i < 64) := by
  simp only [extents, List.forall_mem_cons, List.not_mem_nil, false_imp_iff, implies_true, and_true]
  exact Iff.rfl

end Field

/-- **A guest root pointer is kept whole in its three parts**, which are all that its setter
writes, and a later one replaces it. -/
theorem guestCr3Table_kept (e : DeviceTableEntry) (addr : U64) :
    (withGuestCr3Table addr e).guestCr3Table = addr &&& 0x000ffffffffff000#64 ∧
    (∀ i, ¬(58 ≤ i ∧ i ≤ 60) → (withGuestCr3Table addr e).q0.getLsbD i = e.q0.getLsbD i) ∧
    (∀ i, ¬(16 ≤ i ∧ i ≤ 31) → ¬(43 ≤ i ∧ i ≤ 63) →
      (withGuestCr3Table addr e).q1.getLsbD i = e.q1.getLsbD i) ∧
    (withGuestCr3Table addr e).q2 = e.q2 ∧ (withGuestCr3Table addr e).q3 = e.q3 ∧
    ∀ addr', withGuestCr3Table addr' (withGuestCr3Table addr e) = withGuestCr3Table addr' e := by
  refine ⟨Field.guestCr3Table_set addr e, fun i hi => ?_, fun i hlow hhigh => ?_, rfl, rfl,
    fun addr' => Field.set_set .guestCr3Table addr addr' e⟩
  · refine (Field.guestCr3Table_agreeOff addr e).getLsbD .q0 i (Field.guestCr3Table_off.mpr ⟨?_, ?_, ?_⟩)
    · exact fun ⟨_, hlo, hlt⟩ => hi ⟨hlo, Nat.le_of_lt_succ hlt⟩
    · exact fun h => nomatch h.1
    · exact fun h => nomatch h.1
  · refine (Field.guestCr3Table_agreeOff addr e).getLsbD .q1 i (Field.guestCr3Table_off.mpr ⟨?_, ?_, ?_⟩)
    · exact fun h => nomatch h.1
    · exact fun ⟨_, hlo, hlt⟩ => hlow ⟨hlo, Nat.le_of_lt_succ hlt⟩
    · exact fun ⟨_, hlo, hlt⟩ => hhigh ⟨hlo, Nat.le_of_lt_succ hlt⟩

end Iommu.Amd.Dte
