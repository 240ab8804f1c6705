/-! Descent of a radix tree.

An address picks one entry in the table of each level. An entry is absent, ends
the descent, or names the table one level down; at level 1 every present entry
ends it. The laws here say where a descent from a given root stops, in terms of
the tables and entries on its path alone: that it stops (`resolve_total`), what on
(`resolve_iff`) and that nothing off the path matters (`resolve_congr`). -/
namespace Iommu.Lib

/-- How one address descends: the entry each level reads in a table, and what an
entry says. -/
structure Descent (T E : Type) where
  read : Nat → T → E
  present : E → Bool
  leaf : E → Bool
  next : E → T

/-- Where a descent stops, and on what. -/
inductive Stop (E : Type) where
  | absent : Nat → Stop E
  | ends : Nat → E → Stop E

def Stop.level {E : Type} : Stop E → Nat
  | .absent k => k
  | .ends k _ => k

namespace Descent
variable {T E : Type} (D : Descent T E)

/-- The table of level `l` on the path below a root of level `levels`. -/
def table : Nat → T → Nat → T
  | 0, root, _ => root
  | n + 1, root, l => if l ≤ n then table n (D.next (D.read (n + 1) root)) l else root

/-- The entry of level `l` on the path. -/
def entry (levels : Nat) (root : T) (l : Nat) : E := D.read l (D.table levels root l)

/-- The descent itself, which falls through at level 0. -/
def resolve : Nat → T → Option (Stop E)
  | 0, _ => none
  | n + 1, t =>
    if D.present (D.read (n + 1) t) = false then some (.absent (n + 1))
    else if D.leaf (D.read (n + 1) t) = true ∨ n = 0 then some (.ends (n + 1) (D.read (n + 1) t))
    else resolve n (D.next (D.read (n + 1) t))

/-- Every entry above level `k` is present and names a table. -/
def Passes (levels : Nat) (root : T) (k : Nat) : Prop :=
  ∀ l, k < l → l ≤ levels →
    D.present (D.entry levels root l) = true ∧ D.leaf (D.entry levels root l) = false

/-- The descent ends on the entry of level `k`. -/
def EndsAt (levels : Nat) (root : T) (k : Nat) : Prop :=
  1 ≤ k ∧ k ≤ levels ∧ D.Passes levels root k ∧ D.present (D.entry levels root k) = true ∧
    (D.leaf (D.entry levels root k) = true ∨ k = 1)

/-- The descent finds the entry of level `k` absent. -/
def AbsentAt (levels : Nat) (root : T) (k : Nat) : Prop :=
  1 ≤ k ∧ k ≤ levels ∧ D.Passes levels root k ∧ D.present (D.entry levels root k) = false

/-! ### The path -/

theorem table_top (levels : Nat) (root : T) : D.table levels root levels = root := by
  cases levels with
  | zero => rfl
  | succ n => rw [table, if_neg (by omega)]

theorem entry_top (levels : Nat) (root : T) : D.entry levels root levels = D.read levels root := by
  rw [entry, table_top]

theorem table_below {n l : Nat} (root : T) (h : l ≤ n) :
    D.table (n + 1) root l = D.table n (D.next (D.read (n + 1) root)) l := by
  rw [table, if_pos h]

theorem entry_below {n l : Nat} (root : T) (h : l ≤ n) :
    D.entry (n + 1) root l = D.entry n (D.next (D.read (n + 1) root)) l := by
  rw [entry, entry, D.table_below root h]

/-- Each table below the root is the one named by the entry above it. -/
theorem table_next {levels l : Nat} (root : T) (h : l < levels) :
    D.table levels root l = D.next (D.entry levels root (l + 1)) := by
  induction levels generalizing root with
  | zero => omega
  | succ n ih =>
    rw [D.table_below root (by omega)]
    by_cases hl : l = n
    · rw [hl, table_top, entry_top]
    · rw [ih (D.next (D.read (n + 1) root)) (by omega), D.entry_below root (by omega)]

/-- What every named table satisfies, and the root, every table on the path does. -/
theorem table_inv {I : T → Prop} (hn : ∀ e, I (D.next e)) {root : T} (hr : I root) (levels l : Nat) :
    I (D.table levels root l) := by
  induction levels generalizing root with
  | zero => exact hr
  | succ n ih =>
    rw [table]
    split
    · exact ih (hn _)
    · exact hr

theorem passes_top (levels : Nat) (root : T) : D.Passes levels root levels :=
  fun l hl hl' => absurd hl (by omega)

/-- Passing below the top entry is passing it and then the rest. -/
theorem passes_below {n k : Nat} (root : T) (h : k ≤ n) :
    D.Passes (n + 1) root k ↔
      (D.present (D.read (n + 1) root) = true ∧ D.leaf (D.read (n + 1) root) = false) ∧
        D.Passes n (D.next (D.read (n + 1) root)) k := by
  constructor
  · intro hp
    refine ⟨?_, fun l hl hl' => ?_⟩
    · have := hp (n + 1) (by omega) (by omega)
      rwa [entry_top] at this
    · have := hp l hl (by omega)
      rwa [D.entry_below root hl'] at this
  · intro ⟨htop, hp⟩ l hl hl'
    by_cases he : l = n + 1
    · rw [he, entry_top]
      exact htop
    · rw [D.entry_below root (by omega)]
      exact hp l hl (by omega)

/-- What a descent stops on below an entry that names a table is what the rest of it
stops on; `Q` is what must hold of that level and its entry. -/
theorem stop_below (Q : Nat → E → Prop) {n : Nat} (k : Nat) (root : T)
    (hp : D.present (D.read (n + 1) root) = true) (hl : D.leaf (D.read (n + 1) root) = false)
    (hQ : ¬Q (n + 1) (D.read (n + 1) root)) :
    (1 ≤ k ∧ k ≤ n + 1 ∧ D.Passes (n + 1) root k ∧ Q k (D.entry (n + 1) root k)) ↔
      (1 ≤ k ∧ k ≤ n ∧ D.Passes n (D.next (D.read (n + 1) root)) k ∧
        Q k (D.entry n (D.next (D.read (n + 1) root)) k)) := by
  by_cases hk : k ≤ n
  · simp only [D.passes_below root hk, D.entry_below root hk, hp, hl, hk, Nat.le_succ_of_le hk, and_self,
      true_and]
  · constructor
    · rintro ⟨_, hle, _, hq⟩
      obtain rfl : k = n + 1 := by omega
      rw [entry_top] at hq
      exact absurd hq hQ
    · rintro ⟨_, hle, _⟩
      exact absurd hle hk

/-! ### Where the descent stops -/

/-- The stop is what the entries on the path say. -/
def StopsAt (levels : Nat) (root : T) : Stop E → Prop
  | .absent k => D.AbsentAt levels root k
  | .ends k e => D.EndsAt levels root k ∧ e = D.entry levels root k

theorem stopsAt_below {n : Nat} (root : T) (hp : D.present (D.read (n + 1) root) = true)
    (hl : ¬(D.leaf (D.read (n + 1) root) = true ∨ n = 0)) {s : Stop E}
    (h : D.StopsAt n (D.next (D.read (n + 1) root)) s) : D.StopsAt (n + 1) root s := by
  obtain ⟨hleaf, hn⟩ := not_or.mp hl
  have hnext : D.leaf (D.read (n + 1) root) = false := by simpa using hleaf
  cases s with
  | absent k =>
    have hQ : ¬D.present (D.read (n + 1) root) = false := by
      rw [hp]
      decide
    exact (D.stop_below (fun _ e => D.present e = false) k root hp hnext hQ).mpr h
  | ends k e =>
    obtain ⟨hends, rfl⟩ := h
    have hQ : ¬(D.present (D.read (n + 1) root) = true ∧
        (D.leaf (D.read (n + 1) root) = true ∨ n + 1 = 1)) :=
      fun hq => hl (hq.2.imp id Nat.succ.inj)
    exact ⟨(D.stop_below (fun k e => D.present e = true ∧ (D.leaf e = true ∨ k = 1)) k root hp hnext
      hQ).mpr hends, (D.entry_below root hends.2.1).symm⟩

theorem resolve_stopsAt {levels : Nat} {root : T} {s : Stop E} (h : D.resolve levels root = some s) :
    D.StopsAt levels root s := by
  induction levels generalizing root with
  | zero => cases h
  | succ n ih =>
    rw [resolve] at h
    split at h
    case isTrue ha =>
      cases h
      refine ⟨Nat.succ_pos n, Nat.le_refl _, D.passes_top (n + 1) root, ?_⟩
      rw [entry_top, ha]
    case isFalse hp =>
      have hp : D.present (D.read (n + 1) root) = true := by simpa using hp
      split at h
      case isTrue hl =>
        cases h
        refine ⟨⟨Nat.succ_pos n, Nat.le_refl _, D.passes_top (n + 1) root, ?_⟩, (D.entry_top _ root).symm⟩
        rw [entry_top]
        exact ⟨hp, hl.imp id (congrArg Nat.succ)⟩
      case isFalse hl => exact D.stopsAt_below root hp hl (ih h)

/-- A descent of at least one level stops. -/
theorem resolve_total {levels : Nat} (h : 1 ≤ levels) (root : T) :
    ∃ s, D.resolve levels root = some s := by
  induction levels generalizing root with
  | zero => omega
  | succ n ih =>
    rw [resolve]
    split
    · exact ⟨_, rfl⟩
    · split
      · exact ⟨_, rfl⟩
      · exact ih (by omega) _

/-- A descent stops no higher than a level it passes down to. -/
theorem level_le_of_passes {levels k : Nat} {root : T} (hk : 1 ≤ k) (h : D.Passes levels root k) {s : Stop E}
    (hs : D.StopsAt levels root s) : s.level ≤ k := by
  apply Nat.le_of_not_lt
  intro hlt
  cases s with
  | absent l =>
    obtain ⟨_, hle, _, habsent⟩ := hs
    rw [(h l hlt hle).1] at habsent
    exact absurd habsent (by decide)
  | ends l e =>
    obtain ⟨⟨_, hle, _, _, hend⟩, _⟩ := hs
    have hlt : k < l := hlt
    rw [(h l hlt hle).2] at hend
    rcases hend with hend | hend
    · exact absurd hend (by decide)
    · omega

theorem StopsAt.passes {levels : Nat} {root : T} {s : Stop E} (h : D.StopsAt levels root s) :
    1 ≤ s.level ∧ D.Passes levels root s.level := by
  cases s with
  | absent k => exact ⟨h.1, h.2.2.1⟩
  | ends k e => exact ⟨h.1.1, h.1.2.2.1⟩

theorem stopsAt_unique {levels : Nat} {root : T} {s s' : Stop E} (h : D.StopsAt levels root s)
    (h' : D.StopsAt levels root s') : s = s' := by
  have hlevel : s.level = s'.level :=
    Nat.le_antisymm (D.level_le_of_passes h'.passes.1 h'.passes.2 h)
      (D.level_le_of_passes h.passes.1 h.passes.2 h')
  cases s with
  | absent k =>
    cases s' with
    | absent k' => exact congrArg Stop.absent hlevel
    | ends k' e' =>
      obtain rfl : k = k' := hlevel
      exact absurd (h.2.2.2.symm.trans h'.1.2.2.2.1) (by decide)
  | ends k e =>
    obtain ⟨hends, rfl⟩ := h
    cases s' with
    | absent k' =>
      obtain rfl : k = k' := hlevel
      exact absurd (h'.2.2.2.symm.trans hends.2.2.2.1) (by decide)
    | ends k' e' =>
      obtain rfl : k = k' := hlevel
      rw [h'.2]

/-- **A descent stops where the entries on its path say**, and nowhere else. -/
theorem resolve_iff (levels : Nat) (root : T) (s : Stop E) :
    D.resolve levels root = some s ↔ D.StopsAt levels root s := by
  refine ⟨D.resolve_stopsAt, fun h => ?_⟩
  have hlevels : 1 ≤ levels := by
    cases s with
    | absent k => exact Nat.le_trans h.1 h.2.1
    | ends k e => exact Nat.le_trans h.1.1 h.1.2.1
  obtain ⟨s', hs'⟩ := D.resolve_total hlevels root
  rw [hs', D.stopsAt_unique (D.resolve_stopsAt hs') h]

theorem resolve_ends_iff (levels : Nat) (root : T) (k : Nat) (e : E) :
    D.resolve levels root = some (.ends k e) ↔
      D.EndsAt levels root k ∧ e = D.entry levels root k :=
  D.resolve_iff levels root (.ends k e)

theorem resolve_absent_iff (levels : Nat) (root : T) (k : Nat) :
    D.resolve levels root = some (.absent k) ↔ D.AbsentAt levels root k :=
  D.resolve_iff levels root (.absent k)

/-- Two descents that read alike from level `k` up have the same path down to there. -/
theorem table_congr (D' : Descent T E) (hn : D'.next = D.next) (k levels : Nat) (root : T)
    (h : ∀ l t, k ≤ l → l ≤ levels → D'.read l t = D.read l t) (l : Nat) (hl : k ≤ l) :
    D'.table levels root l = D.table levels root l := by
  induction levels generalizing root with
  | zero => rfl
  | succ n ih =>
    simp only [table]
    split
    · rw [h (n + 1) root (by omega) (by omega), hn]
      exact ih _ (fun j t hj hj' => h j t hj (by omega))
    · rfl

theorem endsAt_congr (D' : Descent T E) (hp : D'.present = D.present) (hf : D'.leaf = D.leaf)
    (hn : D'.next = D.next) (levels : Nat) (root : T) (k : Nat)
    (h : ∀ l t, k ≤ l → l ≤ levels → D'.read l t = D.read l t) (he : D.EndsAt levels root k) :
    D'.EndsAt levels root k ∧ D'.entry levels root k = D.entry levels root k := by
  have hentry : ∀ l, k ≤ l → l ≤ levels → D'.entry levels root l = D.entry levels root l :=
    fun l hl hl' => by rw [entry, entry, D.table_congr D' hn k levels root h l hl, h l _ hl hl']
  obtain ⟨h1, hk, hpass, hrest⟩ := he
  refine ⟨⟨h1, hk, fun l hl hl' => ?_, ?_⟩, hentry k (Nat.le_refl k) hk⟩
  · rw [hentry l (Nat.le_of_lt hl) hl', hp, hf]
    exact hpass l hl hl'
  · rw [hentry k (Nat.le_refl k) hk, hp, hf]
    exact hrest

/-- Only the entries on the path are read: a descent that reads the same ones
stops in the same place. -/
theorem resolve_congr (D' : Descent T E) (hp : D'.present = D.present) (hl : D'.leaf = D.leaf)
    (hn : D'.next = D.next) (levels : Nat) (root : T)
    (h : ∀ l, 1 ≤ l → l ≤ levels → D'.read l (D.table levels root l) = D.entry levels root l) :
    D'.resolve levels root = D.resolve levels root := by
  induction levels generalizing root with
  | zero => rfl
  | succ n ih =>
    have htop : D'.read (n + 1) root = D.read (n + 1) root := by
      have := h (n + 1) (by omega) (by omega)
      rwa [table_top, entry_top] at this
    have hrest := ih (D.next (D.read (n + 1) root)) (fun l h1 h2 => by
      have := h l h1 (by omega)
      rwa [D.table_below root h2, D.entry_below root h2] at this)
    simp only [resolve, htop, hp, hl, hn, hrest]

end Descent
end Iommu.Lib
