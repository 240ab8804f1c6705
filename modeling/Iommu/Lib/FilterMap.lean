import Iommu.Lib.Framing

/-! Iterators through `filter_map`.

An adaptor calls its iterator until an item passes. That ends because the iterator
shrinks with every item, and what comes out is what passes of its items, in order
(`filterMap_yields`). -/
namespace Iommu.Lib

section Adaptor
variable {σ α β : Type} {next : σ → Exec (Option α × σ)} {size : σ → Nat}

/-- Every item makes the iterator smaller. -/
def Shrinks (next : σ → Exec (Option α × σ)) (size : σ → Nat) : Prop :=
  ∀ s a s', next s = .returns (some a, s') → size s' < size s

/-- `filter_map(f)`: the step of an iterator that calls another one until `f` takes
what it returns. -/
def filterMapNext (f : α → Option β) (h : Shrinks next size) (s : σ) : Exec (Option β × σ) :=
  match _ : next s with
  | .panics p => .panics p
  | .returns (none, s') => .returns (none, s')
  | .returns (some a, s') =>
    match f a with
    | some b => .returns (some b, s')
    | none => filterMapNext f h s'
termination_by size s
decreasing_by exact h s a s' ‹_›

variable {f : α → Option β} {h : Shrinks next size} {s s' : σ}

theorem filterMapNext_end (hs : next s = .returns (none, s')) :
    filterMapNext f h s = .returns (none, s') := by
  rw [filterMapNext]
  split <;> simp_all

theorem filterMapNext_pass {a : α} {b : β} (hs : next s = .returns (some a, s')) (hb : f a = some b) :
    filterMapNext f h s = .returns (some b, s') := by
  rw [filterMapNext]
  split <;> simp_all

theorem filterMapNext_skip {a : α} (hs : next s = .returns (some a, s')) (hb : f a = none) :
    filterMapNext f h s = filterMapNext f h s' := by
  rw [filterMapNext]
  split <;> simp_all

/-- One call stops at the first item that passes. -/
theorem filterMapNext_of_yields {items : List α} (hs : Yields next s items) :
    ∃ s' rest, filterMapNext f h s = .returns ((items.filterMap f).head?, s') ∧ Yields next s' rest ∧
      rest.filterMap f = (items.filterMap f).tail := by
  induction items generalizing s with
  | nil =>
    obtain ⟨s', hnext, hs'⟩ := yields_iff.mp hs
    exact ⟨s', [], filterMapNext_end hnext, hs', rfl⟩
  | cons a items ih =>
    obtain ⟨s', hnext, hs'⟩ := yields_iff.mp hs
    cases ha : f a with
    | none =>
      rw [List.filterMap_cons_none ha, filterMapNext_skip hnext ha]
      exact ih hs'
    | some b =>
      rw [List.filterMap_cons_some ha]
      exact ⟨s', items, filterMapNext_pass hnext ha, hs', rfl⟩

/-- **The adaptor yields what passes.** -/
theorem filterMap_yields {items : List α} (hs : Yields next s items) :
    Yields (filterMapNext f h) s (items.filterMap f) := by
  intro n
  induction n generalizing s items with
  | zero => rw [Nat.zero_sub]; rfl
  | succ n ih =>
    obtain ⟨s', rest, hnext, hs', hrest⟩ := filterMapNext_of_yields (f := f) (h := h) hs
    rw [items_succ, calls, hnext, Exec.returns_bind]
    show (calls (filterMapNext f h) n s' >>= _) = _
    rw [ih hs', hrest, Exec.returns_bind, Exec.pure_eq]

/-- An iterator that cuts frames shrinks. -/
theorem Framing.Cuts.shrinks {γ : Type} {F : Framing γ} {state : List γ → σ} {item : List γ → α}
    (hcuts : F.Cuts next state item) (bytes : σ → List γ) (hstate : ∀ s, state (bytes s) = s)
    (hbytes : ∀ bs, bytes (state bs) = bs) : Shrinks next fun s => (bytes s).length := by
  intro s a s' hs
  rw [← hstate s] at hs
  by_cases hstuck : F.Stuck (bytes s)
  · cases (hcuts.stuck _ hstuck).symm.trans hs
  · obtain ⟨hwhole, hsplit⟩ := F.whole_of_not_stuck hstuck
    have hcut := hcuts.cut _ ((bytes s).drop (F.length (bytes s))) hwhole
    rw [hsplit] at hcut
    cases hcut.symm.trans hs
    have hpos := F.header_pos
    have hheader := hwhole.header_le
    rw [List.length_take] at hheader
    show (bytes (state _)).length < (bytes s).length
    rw [hbytes, List.length_drop]
    omega

end Adaptor

/-- Filters pass the same of a list when they agree on it. -/
theorem filter_eq_iff {α : Type} (p q : α → Bool) (l : List α) : l.filter p = l.filter q ↔ ∀ a ∈ l, p a = q a := by
  constructor
  · intro h a ha
    have hmem : a ∈ l.filter p ↔ a ∈ l.filter q := by rw [h]
    rw [List.mem_filter, List.mem_filter, and_iff_right ha, and_iff_right ha] at hmem
    exact Bool.eq_iff_iff.mpr hmem
  · exact List.filter_congr

end Iommu.Lib
