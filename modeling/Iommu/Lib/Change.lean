import Iommu.Lib.Descent

/-! Descents that differ.

Two descents of one shape need not read the same entries to take the same path: it is
enough that they are sent on alike as far as the path of one of them goes
(`stopsAt_of_path`). Entries may then differ off the path; or in whatever is none of the
descent's business, everywhere (`Alike.stopsAt`); or some of them may be absent in one
(`cleared_ends`). -/
namespace Iommu.Lib.Descent
variable {T E : Type}

/-- What two descents make of an entry is the same. -/
structure Shape (D D' : Descent T E) : Prop where
  present : D'.present = D.present
  leaf : D'.leaf = D.leaf
  next : D'.next = D.next

/-- An entry that a descent goes on below. -/
def Sends (D : Descent T E) (e : E) (t : T) : Prop := D.present e = true ∧ D.leaf e = false ∧ D.next e = t

variable {D D' : Descent T E} {levels k : Nat} {root : T}

theorem table_of_path (hD : Shape D D')
    (h : ∀ l, k < l → l ≤ levels → D.next (D'.read l (D.table levels root l)) = D.next (D.entry levels root l))
    {l : Nat} (hl : k ≤ l) : D'.table levels root l = D.table levels root l := by
  induction levels generalizing root with
  | zero => rfl
  | succ n ih =>
    simp only [table]
    split
    case isFalse => rfl
    case isTrue hle =>
      have htop := h (n + 1) (by omega) (Nat.le_refl _)
      rw [table_top, entry_top] at htop
      rw [hD.next, htop]
      refine ih fun j hj hjn => ?_
      have hread := h j hj (Nat.le_succ_of_le hjn)
      rwa [D.table_below root hjn, D.entry_below root hjn] at hread

/-- The other descent is sent on as the path is, above a level. -/
def SentAlong (D D' : Descent T E) (levels : Nat) (root : T) (k : Nat) : Prop :=
  ∀ l, k < l → l ≤ levels → Sends D (D'.read l (D.table levels root l)) (D.next (D.entry levels root l))

theorem SentAlong.table (h : SentAlong D D' levels root k) (hD : Shape D D') {l : Nat} (hl : k ≤ l) :
    D'.table levels root l = D.table levels root l :=
  table_of_path hD (fun j hj hle => (h j hj hle).2.2) hl

theorem SentAlong.passes (h : SentAlong D D' levels root k) (hD : Shape D D') : D'.Passes levels root k := by
  intro l hl hle
  obtain ⟨hp, hf, -⟩ := h l hl hle
  rw [entry, h.table hD (Nat.le_of_lt hl), hD.present, hD.leaf]
  exact ⟨hp, hf⟩

theorem StopsAt.level_le {s : Stop E} (h : D.StopsAt levels root s) : s.level ≤ levels := by
  cases s with
  | absent j => exact h.2.1
  | ends j e => exact h.1.2.1

/-- A descent that is sent along a path to its stop, and finds it, stops there. -/
theorem stopsAt_of_path (hD : Shape D D') {s : Stop E} (h : SentAlong D D' levels root s.level)
    (hs : D'.read s.level (D.table levels root s.level) = D.entry levels root s.level)
    (hk : D.StopsAt levels root s) : D'.StopsAt levels root s := by
  have hentry : D'.entry levels root s.level = D.entry levels root s.level := by
    rw [entry, h.table hD (Nat.le_refl _), hs]
  have hone := hk.passes.1
  have hle := hk.level_le
  have hpass := h.passes hD
  cases s with
  | absent j =>
    refine ⟨hone, hle, hpass, ?_⟩
    rw [hD.present]
    exact (congrArg D.present hentry).trans hk.2.2.2
  | ends j e =>
    obtain ⟨⟨_, _, _, hp, hl⟩, he⟩ := hk
    refine ⟨⟨hone, hle, hpass, ?_, ?_⟩, he.trans hentry.symm⟩
    · rw [hD.present]
      exact (congrArg D.present hentry).trans hp
    · rw [hD.leaf]
      exact hl.imp_left (congrArg D.leaf hentry).trans

theorem Passes.sends (h : D.Passes levels root k) {l : Nat} (hl : k < l) (hle : l ≤ levels) :
    Sends D (D.entry levels root l) (D.next (D.entry levels root l)) := ⟨(h l hl hle).1, (h l hl hle).2, rfl⟩

/-! ### Entries that are alike -/

/-- The entries say the same of the path, whatever else they say. -/
structure Alike (D D' : Descent T E) : Prop extends Shape D D' where
  read_present : ∀ l t, D.present (D'.read l t) = D.present (D.read l t)
  read_leaf : ∀ l t, D.leaf (D'.read l t) = D.leaf (D.read l t)
  read_next : ∀ l t, D.next (D'.read l t) = D.next (D.read l t)

theorem Alike.table (h : Alike D D') (l : Nat) : D'.table levels root l = D.table levels root l :=
  table_of_path h.toShape (fun j _ _ => h.read_next j _) (Nat.zero_le l)

theorem Alike.entry (h : Alike D D') (l : Nat) :
    D'.entry levels root l = D'.read l (D.table levels root l) := by
  rw [Descent.entry, h.table]

theorem Alike.passes_iff (h : Alike D D') : D'.Passes levels root k ↔ D.Passes levels root k := by
  refine forall₃_congr fun l _ _ => ?_
  rw [h.entry, h.present, h.leaf, h.read_present, h.read_leaf, Descent.entry]

/-- The stop with the entry that is read there. -/
def reread (D' : Descent T E) (t : Nat → T) : Stop E → Stop E
  | .absent l => .absent l
  | .ends l _ => .ends l (D'.read l (t l))

/-- The path stops where it did, on the entry that is there now. -/
theorem Alike.stopsAt (h : Alike D D') {s : Stop E} (hs : D.StopsAt levels root s) :
    D'.StopsAt levels root (reread D' (D.table levels root) s) := by
  cases s with
  | absent j =>
    obtain ⟨hone, hle, hpass, hp⟩ := hs
    refine ⟨hone, hle, h.passes_iff.mpr hpass, ?_⟩
    rw [h.entry, h.present, h.read_present]
    exact hp
  | ends j e =>
    obtain ⟨⟨hone, hle, hpass, hp, hl⟩, -⟩ := hs
    refine ⟨⟨hone, hle, h.passes_iff.mpr hpass, ?_, ?_⟩, (h.entry j).symm⟩
    · rw [h.entry, h.present, h.read_present]
      exact hp
    · rw [h.entry, h.leaf, h.read_leaf]
      exact hl

/-! ### Entries that are absent -/

/-- What the other descent finds present it finds as it is. -/
structure Cleared (D D' : Descent T E) : Prop extends Shape D D' where
  read : ∀ l t, D.present (D'.read l t) = true → D'.read l t = D.read l t

/-- On the path of the descent that finds less, all is as it is. -/
theorem Cleared.sentAlong (h : Cleared D D') (hp : D'.Passes levels root k) : SentAlong D' D levels root k := by
  intro l hl hle
  have hentry := hp l hl hle
  have hread : D'.entry levels root l = D.read l (D'.table levels root l) :=
    h.read l _ (h.present ▸ hentry.1)
  rw [hread] at hentry ⊢
  exact ⟨hentry.1, hentry.2, rfl⟩

theorem Shape.symm (h : Shape D D') : Shape D' D := ⟨h.present.symm, h.leaf.symm, h.next.symm⟩

/-- Where it ends, the other ends. -/
theorem Cleared.ends (h : Cleared D D') {e : E} (hs : D'.StopsAt levels root (.ends k e)) :
    D.StopsAt levels root (.ends k e) := by
  refine stopsAt_of_path h.symm (h.sentAlong hs.1.2.2.1) ?_ hs
  exact (h.read k _ (h.present ▸ hs.1.2.2.2.1)).symm

/-- Where it finds nothing, the other goes as far at least. -/
theorem Cleared.absent (h : Cleared D D') {s : Stop E} (hs : D'.StopsAt levels root (.absent k))
    (hs' : D.StopsAt levels root s) : s.level ≤ k :=
  D.level_le_of_passes hs.1 ((h.sentAlong hs.2.2.1).passes h.symm) hs'

end Iommu.Lib.Descent
