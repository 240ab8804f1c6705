import Iommu.Tables

/-! Tables that name tables.

The entries of one table give the addresses of others, of another kind of entry, and the
driver stores into both, and changes the rest of its memory, in any order. The tables do
not see one another: after any run each slot shows what was stored there last
(`run_shows`), so the way through the first table leads to what was last stored on it
(`Shown.find_last`). -/
namespace Iommu.Linked
open Lib Tables

/-- A table, the tables that its entries name, by their addresses, and the rest of memory.
They are apart by construction: that no two of them overlap is assumed of the layout that
the caller chose. -/
structure Memory (M : Type) where
  upper : List U8
  lower : U64 → List U8
  rest : M

inductive Step (E F U : Type) where
  | upper : Nat → E → Step E F U
  | lower : U64 → Nat → F → Step E F U
  | other : U → Step E F U

section Runs
variable {E F U M : Type} (K : Kind E) (L : Kind F) (act : M → U → M)

def Step.apply (m : Memory M) : Step E F U → Exec (Memory M)
  | upper i e => do
    let upper ← K.store m.upper i e
    return { m with upper }
  | lower table j f => do
    let entries ← L.store (m.lower table) j f
    return { m with lower := Function.update m.lower table entries }
  | other u => return { m with rest := act m.rest u }

def runSteps (m : Memory M) : List (Step E F U) → Exec (Memory M)
  | [] => return m
  | s :: steps => do
    let m ← s.apply K L act m
    runSteps m steps

/-- The slots of a step are slots of its table. -/
def Step.Inside (n : Nat) (count : U64 → Nat) : Step E F U → Prop
  | upper i _ => i < n
  | lower table j _ => j < count table
  | other _ => True

/-- The last entry stored in a slot of the first table. -/
def LastUpper (i : Nat) (e : E) (steps : List (Step E F U)) : Prop :=
  ∃ pre post, steps = pre ++ .upper i e :: post ∧ ∀ e', .upper i e' ∉ post

/-- The last entry stored in a slot of a table that is named. -/
def LastLower (table : U64) (j : Nat) (f : F) (steps : List (Step E F U)) : Prop :=
  ∃ pre post, steps = pre ++ .lower table j f :: post ∧ ∀ f', .lower table j f' ∉ post

/-! ### The parts of a run -/

def Step.upperStore : Step E F U → Option (Nat × E)
  | upper i e => some (i, e)
  | _ => none

def Step.lowerStore (table : U64) : Step E F U → Option (Nat × F)
  | lower table' j f => if table' = table then some (j, f) else none
  | _ => none

def Step.otherUpdate : Step E F U → Option U
  | other u => some u
  | _ => none

def upperStores (steps : List (Step E F U)) : List (Nat × E) := steps.filterMap Step.upperStore

def lowerStores (table : U64) (steps : List (Step E F U)) : List (Nat × F) := steps.filterMap (Step.lowerStore table)

def updates (steps : List (Step E F U)) : List U := steps.filterMap Step.otherUpdate

theorem lowerStores_same (table : U64) (j : Nat) (f : F) (steps : List (Step E F U)) :
    lowerStores table (.lower table j f :: steps) = (j, f) :: lowerStores table steps :=
  List.filterMap_cons_some (if_pos rfl)

theorem lowerStores_other {table a : U64} (h : table ≠ a) (j : Nat) (f : F) (steps : List (Step E F U)) :
    lowerStores a (.lower table j f :: steps) = lowerStores a steps := List.filterMap_cons_none (if_neg h)

/-- The tables do not see one another. -/
theorem runSteps_eq {m : Memory M} {steps : List (Step E F U)} {upper : List U8} {lower : U64 → List U8}
    (hupper : K.storeAll m.upper (upperStores steps) = .returns upper)
    (hlower : ∀ a, L.storeAll (m.lower a) (lowerStores a steps) = .returns (lower a)) :
    runSteps K L act m steps = .returns ⟨upper, lower, (updates steps).foldl act m.rest⟩ := by
  induction steps generalizing m with
  | nil =>
    cases hupper
    have hsame : m.lower = lower := by
      funext a
      exact Exec.returns.inj (hlower a)
    rw [← hsame]
    rfl
  | cons s steps ih =>
    cases s with
    | upper i e =>
      obtain ⟨stored, hstore, hrest⟩ := Exec.bind_eq_returns.mp hupper
      rw [runSteps, Step.apply, hstore, Exec.returns_bind, Exec.pure_eq, Exec.returns_bind]
      exact ih hrest hlower
    | lower table j f =>
      have htable := hlower table
      rw [lowerStores_same] at htable
      obtain ⟨stored, hstore, hrest⟩ := Exec.bind_eq_returns.mp htable
      rw [runSteps, Step.apply, hstore, Exec.returns_bind, Exec.pure_eq, Exec.returns_bind]
      refine ih hupper fun a => ?_
      show L.storeAll (Function.update m.lower table stored a) (lowerStores a steps) = _
      by_cases ha : a = table
      · subst ha
        rw [Function.update_self]
        exact hrest
      · have hother := hlower a
        rw [lowerStores_other (Ne.symm ha)] at hother
        rw [Function.update_of_ne ha]
        exact hother
    | other u =>
      rw [runSteps, Step.apply, Exec.pure_eq, Exec.returns_bind]
      exact ih hupper hlower

variable {n : Nat} {count : U64 → Nat} {steps : List (Step E F U)}

/-- A store that is read off a run is a step of it. -/
theorem mem_of_upperStores {i : Nat} {e : E} (h : (i, e) ∈ upperStores steps) : .upper i e ∈ steps := by
  obtain ⟨step, hstep, hsome⟩ := List.mem_filterMap.mp h
  cases step with
  | upper i e =>
    cases hsome
    exact hstep
  | lower _ _ _ => cases hsome
  | other _ => cases hsome

theorem mem_of_lowerStores {table : U64} {j : Nat} {f : F} (h : (j, f) ∈ lowerStores table steps) :
    .lower table j f ∈ steps := by
  obtain ⟨step, hstep, hsome⟩ := List.mem_filterMap.mp h
  cases step with
  | upper _ _ => cases hsome
  | lower table' j f =>
    obtain ⟨rfl, hstore⟩ := Option.ite_none_right_eq_some.mp hsome
    cases hstore
    exact hstep
  | other _ => cases hsome

theorem upperStores_inside (h : ∀ s ∈ steps, s.Inside n count) : ∀ s ∈ upperStores steps, s.1 < n :=
  fun _ hs => h _ (mem_of_upperStores hs)

theorem lowerStores_inside (h : ∀ s ∈ steps, s.Inside n count) (table : U64) :
    ∀ s ∈ lowerStores table steps, s.1 < count table := fun _ hs => h _ (mem_of_lowerStores hs)

theorem upperStores_unset {i : Nat} (h : ∀ e, .upper i e ∉ steps) : ∀ s ∈ upperStores steps, s.1 ≠ i := by
  rintro ⟨i, e⟩ hs rfl
  exact h e (mem_of_upperStores hs)

theorem lowerStores_unset {table : U64} {j : Nat} (h : ∀ f, .lower table j f ∉ steps) :
    ∀ s ∈ lowerStores table steps, s.1 ≠ j := by
  rintro ⟨j, f⟩ hs rfl
  exact h f (mem_of_lowerStores hs)

theorem upperStores_last {i : Nat} {e : E} (h : LastUpper i e steps) :
    ∃ pre post, upperStores steps = pre ++ (i, e) :: post ∧ ∀ s ∈ post, s.1 ≠ i := by
  obtain ⟨pre, post, rfl, hpost⟩ := h
  exact ⟨upperStores pre, upperStores post, by rw [upperStores, List.filterMap_append]; rfl, upperStores_unset hpost⟩

theorem lowerStores_last {table : U64} {j : Nat} {f : F} (h : LastLower table j f steps) :
    ∃ pre post, lowerStores table steps = pre ++ (j, f) :: post ∧ ∀ s ∈ post, s.1 ≠ j := by
  obtain ⟨pre, post, rfl, hpost⟩ := h
  refine ⟨lowerStores table pre, lowerStores table post, ?_, lowerStores_unset hpost⟩
  rw [lowerStores, List.filterMap_append]
  exact congrArg (lowerStores table pre ++ ·) (lowerStores_same table j f post)

/-! ### What a run leaves -/

variable (n count)

/-- What is read after a run, through the overlays of both kinds of entry. -/
structure Shown (upperAt : Nat → List U8 → Option E) (lowerAt : Nat → List U8 → Option F) (m after : Memory M)
    (steps : List (Step E F U)) : Prop where
  upper : ∀ base i e, base % 8 = 0 → LastUpper i e steps → K.entryAt upperAt base after.upper i = .returns (some e)
  upper_kept : ∀ base, ∀ i < n, base % 8 = 0 → (∀ e, .upper i e ∉ steps) →
    ∃ e, K.entryAt upperAt base m.upper i = .returns (some e) ∧
      K.entryAt upperAt base after.upper i = .returns (some e)
  lower : ∀ base table j f, base % 8 = 0 → LastLower table j f steps →
    L.entryAt lowerAt base (after.lower table) j = .returns (some f)
  lower_kept : ∀ base table, ∀ j < count table, base % 8 = 0 → (∀ f, .lower table j f ∉ steps) →
    ∃ f, L.entryAt lowerAt base (m.lower table) j = .returns (some f) ∧
      L.entryAt lowerAt base (after.lower table) j = .returns (some f)
  rest : after.rest = (updates steps).foldl act m.rest

variable {n count}

/-- A slot that no store is into shows what it showed. -/
theorem entryAt_kept {E : Type} {K : Kind E} {overlay : Nat → List U8 → Option E} {base count : Nat}
    {table after : List U8} {stores : List (Nat × E)} (h : K.Shows overlay base count table after stores) {i : Nat}
    (hi : i < count) (hnone : ∀ s ∈ stores, s.1 ≠ i) :
    ∃ e, K.entryAt overlay base table i = .returns (some e) ∧ K.entryAt overlay base after i = .returns (some e) := by
  obtain ⟨e, he, -⟩ := h.whole i hi
  have hsame : K.entryAt overlay base table i = K.entryAt overlay base after i := by
    rw [Kind.entryAt, Kind.entryAt, h.untouched i hi hnone]
  exact ⟨e, hsame.trans he, he⟩

/-- What stores leave does not depend on where the table lies. -/
theorem storeAll_shows {E Err : Type} {K : Kind E} {ref : Nat → List U8 → Except Err E} (hK : 0 < K.size)
    (href : K.RefFromBytes ref) {count : Nat} {table : List U8} (hlength : table.length = K.size * count)
    {stores : List (Nat × E)} (hinside : ∀ s ∈ stores, s.1 < count) :
    ∃ after, K.storeAll table stores = .returns after ∧ ∀ base, base % 8 = 0 →
      K.Shows (fun addr bytes => (ref addr bytes).toOption) base count table after stores := by
  have hholds := fun base hbase => (K.holds hK href).shows base count table stores hbase hlength hinside
  obtain ⟨after, hafter, -, -⟩ := hholds 0 rfl
  refine ⟨after, hafter, fun base hbase => ?_⟩
  obtain ⟨after', hafter', -, hshown⟩ := hholds base hbase
  cases hafter.symm.trans hafter'
  exact hshown

/-- **Linked tables hold what is stored in them.** -/
theorem run_shows {Err : Type} {upperRef : Nat → List U8 → Except Err E} {lowerRef : Nat → List U8 → Except Err F}
    (hK : 0 < K.size) (hL : 0 < L.size) (hupperRef : K.RefFromBytes upperRef) (hlowerRef : L.RefFromBytes lowerRef)
    (m : Memory M) (hupper : m.upper.length = K.size * n) (hlower : ∀ a, (m.lower a).length = L.size * count a)
    (steps : List (Step E F U)) (hinside : ∀ s ∈ steps, s.Inside n count) :
    ∃ after, runSteps K L act m steps = .returns after ∧
      Shown K L act n count (fun addr bytes => (upperRef addr bytes).toOption)
        (fun addr bytes => (lowerRef addr bytes).toOption) m after steps := by
  obtain ⟨upper, hstored, hshows⟩ := storeAll_shows hK hupperRef hupper (upperStores_inside hinside)
  choose lower hstores hshows' using fun a =>
    storeAll_shows hL hlowerRef (hlower a) (lowerStores_inside hinside a)
  refine ⟨_, runSteps_eq K L act hstored hstores, ?_⟩
  exact {
    upper := fun base i e hbase hlast => by
      obtain ⟨pre, post, hsplit, hpost⟩ := upperStores_last hlast
      exact (hshows base hbase).last i e pre post hsplit hpost
    upper_kept := fun base i hi hbase hnone => entryAt_kept (hshows base hbase) hi (upperStores_unset hnone)
    lower := fun base table j f hbase hlast => by
      obtain ⟨pre, post, hsplit, hpost⟩ := lowerStores_last hlast
      exact (hshows' table base hbase).last j f pre post hsplit hpost
    lower_kept := fun base table j hj hbase hnone =>
      entryAt_kept (hshows' table base hbase) hj (lowerStores_unset hnone)
    rest := rfl }

/-! ### By way of the first table -/

variable {upperAt : Nat → List U8 → Option E} {lowerAt : Nat → List U8 → Option F} (next : E → Option U64)
  {base : Nat}

variable (upperAt lowerAt base) in
/-- What is found by way of a slot of the first table, whose entry names a table or none. -/
def find (m : Memory M) (i j : Nat) : Exec (Option F) := do
  let e ← K.entryAt upperAt base m.upper i
  match e.bind next with
  | some table => L.entryAt lowerAt table.toNat (m.lower table) j
  | none => return none

variable {K L next} {m after : Memory M} {i j : Nat} {e : E} {table : U64} {f : F}

theorem find_named (he : K.entryAt upperAt base m.upper i = .returns (some e)) (hnext : next e = some table) :
    find K L upperAt lowerAt next base m i j = L.entryAt lowerAt table.toNat (m.lower table) j := by
  simp only [find, he, Exec.returns_bind, Option.bind_some, hnext]

theorem find_unnamed (he : K.entryAt upperAt base m.upper i = .returns (some e)) (hnext : next e = none) :
    find K L upperAt lowerAt next base m i j = .returns none := by
  simp only [find, he, Exec.returns_bind, Option.bind_some, hnext, Exec.pure_eq]

variable {act} (h : Shown K L act n count upperAt lowerAt m after steps) (hbase : base % 8 = 0)
include h hbase

theorem Shown.find_last (hupper : LastUpper i e steps) (hnext : next e = some table) (htable : table.toNat % 8 = 0)
    (hlower : LastLower table j f steps) : find K L upperAt lowerAt next base after i j = .returns (some f) :=
  (find_named (h.upper base i e hbase hupper) hnext).trans (h.lower table.toNat table j f htable hlower)

theorem Shown.find_none (hupper : LastUpper i e steps) (hnext : next e = none) :
    find K L upperAt lowerAt next base after i j = .returns none :=
  find_unnamed (h.upper base i e hbase hupper) hnext

/-- A slot that named no table, and was not stored into, names none. -/
theorem Shown.find_kept (hi : i < n) (hunset : ∀ e, .upper i e ∉ steps)
    (hnext : ∀ e, K.entryAt upperAt base m.upper i = .returns (some e) → next e = none) :
    find K L upperAt lowerAt next base after i j = .returns none := by
  obtain ⟨e, hbefore, hafter⟩ := h.upper_kept base i hi hbase hunset
  exact find_unnamed hafter (hnext e hbefore)

end Runs
end Iommu.Linked
