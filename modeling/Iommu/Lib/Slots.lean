/-! Records of slots.

A state has slots, each with a getter and a setter, and a *run* calls setters one
after another. The record is *faithful* after a run when every getter returns what
its own setter was last given, as that setter keeps it, or what it returned at the
start. A run is faithful all along exactly when each of its calls leaves every
other slot as it was (`faithful_iff_frames`): a record needs no other law. -/
namespace Iommu.Lib

structure Slots (S K : Type) where
  Val : K → Type
  get : (k : K) → S → Val k
  set : (k : K) → Val k → S → S
  /-- What the slot keeps of a value it is given. -/
  kept : (k : K) → Val k → Val k
  get_set : ∀ k v s, get k (set k v s) = kept k v

namespace Slots
variable {S K : Type} (R : Slots S K)

/-- One call of a setter. -/
abbrev Call := Sigma R.Val

def call (s : S) (c : R.Call) : S := R.set c.1 c.2 s

def run (s : S) (cs : List R.Call) : S := cs.foldl R.call s

/-- The call leaves every other slot as it was. -/
def Frames (s : S) (c : R.Call) : Prop := ∀ k, k ≠ c.1 → R.get k (R.call s c) = R.get k s

/-- No call is to the slot. -/
def Unset (k : K) (cs : List R.Call) : Prop := ∀ c ∈ cs, k ≠ c.1

/-- Every getter returns the last value of its setter, or the starting value. -/
structure Faithful (s : S) (cs : List R.Call) : Prop where
  unset : ∀ k, R.Unset k cs → R.get k (R.run s cs) = R.get k s
  last : ∀ k v before after, cs = before ++ ⟨k, v⟩ :: after → R.Unset k after →
    R.get k (R.run s cs) = R.kept k v

@[simp] theorem run_nil (s : S) : R.run s [] = s := rfl

@[simp] theorem run_cons (s : S) (c : R.Call) (cs : List R.Call) :
    R.run s (c :: cs) = R.run (R.call s c) cs := rfl

theorem run_append (s : S) (cs ds : List R.Call) : R.run s (cs ++ ds) = R.run (R.run s cs) ds :=
  List.foldl_append

theorem run_snoc (s : S) (cs : List R.Call) (c : R.Call) :
    R.run s (cs ++ [c]) = R.call (R.run s cs) c := by
  rw [run_append, run_cons, run_nil]

/-- A run either never calls a slot, or has a last call to it. -/
theorem unset_or_last [DecidableEq K] (k : K) (cs : List R.Call) :
    R.Unset k cs ∨ ∃ v before after, cs = before ++ ⟨k, v⟩ :: after ∧ R.Unset k after := by
  induction cs with
  | nil => exact .inl fun c hc => absurd hc List.not_mem_nil
  | cons c cs ih =>
    rcases ih with hunset | ⟨v, before, after, rfl, hafter⟩
    · by_cases hk : k = c.1
      · subst hk
        exact .inr ⟨c.2, [], cs, rfl, hunset⟩
      · refine .inl fun d hd => ?_
        rcases List.mem_cons.mp hd with rfl | hd
        · exact hk
        · exact hunset d hd
    · exact .inr ⟨v, c :: before, after, rfl, hafter⟩

/-- A slot that a run never calls is left alone by framing calls. -/
theorem get_run_of_unset (k : K) (s : S) (cs : List R.Call) (hk : R.Unset k cs)
    (hframes : ∀ p c, p ++ [c] <+: cs → R.Frames (R.run s p) c) : R.get k (R.run s cs) = R.get k s := by
  induction cs generalizing s with
  | nil => rfl
  | cons c cs ih =>
    have hhead : R.Frames s c := hframes [] c ⟨cs, rfl⟩
    have htail : R.get k (R.run (R.call s c) cs) = R.get k (R.call s c) := by
      refine ih (R.call s c) (fun d hd => hk d (List.mem_cons_of_mem c hd)) fun p d hp => ?_
      obtain ⟨rest, hrest⟩ := hp
      exact hframes (c :: p) d ⟨rest, congrArg (c :: ·) hrest⟩
    rw [run_cons, htail, hhead k (hk c List.mem_cons_self)]

theorem faithful_of_frames (s : S) (cs : List R.Call)
    (hframes : ∀ p c, p ++ [c] <+: cs → R.Frames (R.run s p) c) : R.Faithful s cs := by
  refine ⟨fun k hk => R.get_run_of_unset k s cs hk hframes, fun k v before after hcs hafter => ?_⟩
  subst hcs
  rw [run_append, run_cons]
  rw [R.get_run_of_unset k _ after hafter fun p c hp => ?_]
  · exact R.get_set k v _
  · obtain ⟨rest, hrest⟩ := hp
    have := hframes (before ++ ⟨k, v⟩ :: p) c ⟨rest, by rw [← hrest]; simp⟩
    rwa [run_append, run_cons] at this

/-- A call that keeps a faithful run faithful frames. -/
theorem frames_of_faithful [DecidableEq K] (s : S) (p : List R.Call) (c : R.Call) (hp : R.Faithful s p)
    (hpc : R.Faithful s (p ++ [c])) : R.Frames (R.run s p) c := by
  intro k hk
  have hsnoc : ∀ ds, R.Unset k ds → R.Unset k (ds ++ [c]) := fun ds hds d hd => by
    rcases List.mem_append.mp hd with hd | hd
    · exact hds d hd
    · rw [List.mem_singleton.mp hd]
      exact hk
  rw [← run_snoc]
  rcases R.unset_or_last k p with hunset | ⟨v, before, after, hlast, hafter⟩
  · rw [hp.unset k hunset, hpc.unset k (hsnoc p hunset)]
  · rw [hp.last k v before after hlast hafter,
      hpc.last k v before (after ++ [c]) (by rw [hlast]; simp) (hsnoc after hafter)]

/-- **Faithful at every state of a run**: exactly when every call frames in the state
it is made in. -/
theorem faithful_iff_frames [DecidableEq K] (s : S) (cs : List R.Call) :
    (∀ p, p <+: cs → R.Faithful s p) ↔ ∀ p c, p ++ [c] <+: cs → R.Frames (R.run s p) c := by
  constructor
  · intro h p c hpc
    exact R.frames_of_faithful s p c (h p ((List.prefix_append p [c]).trans hpc)) (h _ hpc)
  · intro h p hp
    exact R.faithful_of_frames s p fun q c hq => h q c (hq.trans hp)

/-- A run's last call to a slot. -/
def LastSet (k : K) (v : R.Val k) (cs : List R.Call) : Prop :=
  ∃ before after, cs = before ++ ⟨k, v⟩ :: after ∧ R.Unset k after

theorem Faithful.get_last {R : Slots S K} {s : S} {cs : List R.Call} (h : R.Faithful s cs) {k : K} {v : R.Val k}
    (hlast : R.LastSet k v cs) : R.get k (R.run s cs) = R.kept k v := by
  obtain ⟨before, after, hcs, hunset⟩ := hlast
  exact h.last k v before after hcs hunset

/-! ### Values that are kept as they are -/

/-- Every getter returns the very value that its setter was last given. -/
def Exact (s : S) (cs : List R.Call) : Prop :=
  ∀ k v before after, cs = before ++ ⟨k, v⟩ :: after → R.Unset k after → R.get k (R.run s cs) = v

/-- A faithful run is exact when no last value loses anything. -/
theorem Faithful.exact_iff {R : Slots S K} {s : S} {cs : List R.Call} (h : R.Faithful s cs) :
    R.Exact s cs ↔ ∀ k v before after, cs = before ++ ⟨k, v⟩ :: after → R.Unset k after → R.kept k v = v := by
  refine forall₂_congr fun k v => forall₂_congr fun before after => forall₂_congr fun hcs hafter => ?_
  rw [h.last k v before after hcs hafter]

end Slots
end Iommu.Lib
