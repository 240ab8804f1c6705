import Iommu.Lib.Change
import Mathlib.Logic.Function.Basic

/-! Radix trees in a memory of cells, and the writes that keep them.

Many keys descend through one memory, each from a root of its own. Keys of one region
of a level have the same path down to the cell of that level. As long as no table is
come to in two ways (`Tree`), a write to a cell on a path is an assignment to the keys of one region
(`Holds.write`), whatever else the memory holds: with a terminal entry they all stop
there, with a link to a table that no path has come to they stop on what was put in
it before. -/
namespace Iommu.Lib

/-- Radix trees of many keys in one memory. Keys of type `K` lie in regions `X`, tables
`T` are made of cells `C` that hold entries `E`. -/
structure Radix (K X T C E : Type) where
  /-- The region of a level around a key. -/
  region : Nat → K → X
  root : K → T
  levels : K → Nat
  /-- The cell that a key reads in a table of a level. -/
  cell : K → Nat → T → C
  present : E → Bool
  leaf : E → Bool
  next : E → T
  /-- What a table has to be for its cells to be its own. -/
  Frame : T → Prop
  region_mono : ∀ {l m k k'}, region l k = region l k' → l ≤ m → region m k = region m k'
  root_of_region : ∀ {l k k'}, region l k = region l k' → root k = root k' ∧ levels k = levels k'
  region_of_root : ∀ {k k'}, root k = root k' → levels k = levels k' ∧
    region (levels k + 1) k = region (levels k + 1) k'
  cell_of_region : ∀ {l k k'}, region l k = region l k' → 1 ≤ l → l ≤ levels k → ∀ t, cell k l t = cell k' l t
  region_of_cell : ∀ {l k k' t}, region (l + 1) k = region (l + 1) k' → 1 ≤ l → l ≤ levels k → Frame t →
    cell k l t = cell k' l t → region l k = region l k'
  table_of_cell : ∀ {l l' k k' t t'}, 1 ≤ l → l ≤ levels k → 1 ≤ l' → l' ≤ levels k' → Frame t → Frame t' →
    cell k l t = cell k' l' t' → t = t'

namespace Radix
variable {K X T C E : Type} (R : Radix K X T C E)

/-- The descent of a key. -/
def descent (mem : C → E) (k : K) : Descent T E where
  read l t := mem (R.cell k l t)
  present := R.present
  leaf := R.leaf
  next := R.next

/-- The table of a level on the path of a key. -/
def tableOf (mem : C → E) (k : K) (l : Nat) : T := (R.descent mem k).table (R.levels k) (R.root k) l

/-- The cell of a level on the path of a key. -/
def slot (mem : C → E) (k : K) (l : Nat) : C := R.cell k l (R.tableOf mem k l)

/-- The path of a key comes down to a level. -/
def Reaches (mem : C → E) (k : K) (l : Nat) : Prop :=
  1 ≤ l ∧ l ≤ R.levels k ∧ (R.descent mem k).Passes (R.levels k) (R.root k) l

/-- What a key stops on. -/
def Stops (mem : C → E) (k : K) (s : Stop E) : Prop := (R.descent mem k).StopsAt (R.levels k) (R.root k) s

/-- A path does not go on below this entry of a level. -/
def Terminal (l : Nat) (e : E) : Prop := R.present e = true → R.leaf e = true ∨ l = 1

/-- What a path stops on at such an entry. -/
def stopOn (l : Nat) (e : E) : Stop E := if R.present e = true then .ends l e else .absent l

/-- No table is come to in two ways. -/
structure Tree (mem : C → E) : Prop where
  frame : ∀ {k l}, R.Reaches mem k l → R.Frame (R.tableOf mem k l)
  unique : ∀ {k k' l l'}, R.Reaches mem k l → R.Reaches mem k' l' → R.tableOf mem k l = R.tableOf mem k' l' →
    l = l' ∧ R.region (l + 1) k = R.region (l + 1) k'

variable {R} {mem mem' : C → E} {k k' : K} {l m : Nat}

/-! ### Paths -/

theorem Reaches.above (h : R.Reaches mem k l) (hm : l ≤ m) (hle : m ≤ R.levels k) : R.Reaches mem k m :=
  ⟨Nat.le_trans h.1 hm, hle, fun j hj hj' => h.2.2 j (Nat.lt_of_le_of_lt hm hj) hj'⟩

theorem Stops.reaches {s : Stop E} (h : R.Stops mem k s) : R.Reaches mem k s.level :=
  ⟨(Descent.StopsAt.passes _ h).1, Descent.StopsAt.level_le h, (Descent.StopsAt.passes _ h).2⟩

theorem Stops.entry {e : E} (h : R.Stops mem k (.ends l e)) : e = mem (R.slot mem k l) := h.2

/-- The levels that a path comes down to are those from its stop up. -/
theorem Stops.reaches_iff {s : Stop E} (h : R.Stops mem k s) : R.Reaches mem k m ↔ s.level ≤ m ∧ m ≤ R.levels k := by
  constructor
  · intro hm
    exact ⟨Descent.level_le_of_passes _ hm.1 hm.2.2 h, hm.2.1⟩
  · intro hm
    exact h.reaches.above hm.1 hm.2

/-- A path that comes down to a terminal entry stops there. -/
theorem Reaches.stops (h : R.Reaches mem k l) (ht : R.Terminal l (mem (R.slot mem k l))) :
    R.Stops mem k (R.stopOn l (mem (R.slot mem k l))) := by
  obtain ⟨hone, hle, hpass⟩ := h
  unfold stopOn
  split
  case isTrue hp => exact ⟨⟨hone, hle, hpass, hp, ht hp⟩, rfl⟩
  case isFalse hp => exact ⟨hone, hle, hpass, Bool.eq_false_iff.mpr hp⟩

/-- A path that comes down to any other entry comes to the table that it names. -/
theorem Reaches.below (h : R.Reaches mem k (l + 1)) (ht : ¬R.Terminal (l + 1) (mem (R.slot mem k (l + 1)))) :
    R.Reaches mem k l ∧ R.tableOf mem k l = R.next (mem (R.slot mem k (l + 1))) := by
  obtain ⟨_, hle, hpass⟩ := h
  obtain ⟨hp, hstop⟩ := Classical.not_imp.mp ht
  obtain ⟨hleaf, hne⟩ := not_or.mp hstop
  refine ⟨⟨by omega, Nat.le_of_succ_le hle, fun j hj hj' => ?_⟩, (R.descent mem k).table_next (R.root k) hle⟩
  by_cases hjl : j = l + 1
  · rw [hjl]
    exact ⟨hp, Bool.eq_false_iff.mpr hleaf⟩
  · exact hpass j (by omega) hj'

theorem shape (R : Radix K X T C E) (mem mem' : C → E) (k k' : K) :
    Descent.Shape (R.descent mem k) (R.descent mem' k') := ⟨rfl, rfl, rfl⟩

/-- Keys of one region read the same cells from its level up. -/
theorem read_region (h : R.region (l + 1) k = R.region (l + 1) k') (hm : l < m) (hle : m ≤ R.levels k) (t : T) :
    (R.descent mem k').read m t = (R.descent mem k).read m t :=
  congrArg mem (R.cell_of_region (R.region_mono h hm) (by omega) hle t).symm

/-- Keys of one region come down to the same table of the level below it. -/
theorem tableOf_region (h : R.region (l + 1) k = R.region (l + 1) k') : R.tableOf mem k' l = R.tableOf mem k l := by
  obtain ⟨hroot, hlevels⟩ := R.root_of_region h
  rw [tableOf, tableOf, ← hroot, ← hlevels]
  refine Descent.table_of_path (R.shape mem mem k k') (fun j hj hj' => ?_) (Nat.le_refl l)
  rw [read_region h hj hj']
  rfl

theorem Reaches.region (hk : R.Reaches mem k l) (h : R.region (l + 1) k = R.region (l + 1) k') :
    R.Reaches mem k' l := by
  obtain ⟨hroot, hlevels⟩ := R.root_of_region h
  refine ⟨hk.1, hlevels ▸ hk.2.1, ?_⟩
  rw [← hroot, ← hlevels]
  refine Descent.SentAlong.passes (fun j hj hj' => ?_) (R.shape mem mem k k')
  rw [read_region h hj hj']
  exact hk.2.2.sends hj hj'

theorem slot_region (h : R.region l k = R.region l k') (hone : 1 ≤ l) (hle : l ≤ R.levels k) :
    R.slot mem k' l = R.slot mem k l := by
  rw [slot, slot, tableOf_region (R.region_mono h (Nat.le_succ l)), R.cell_of_region h hone hle]

/-- In a tree a cell on a path belongs to one level and one region. -/
theorem Tree.slot_inj (ht : R.Tree mem) (h : R.Reaches mem k l) (h' : R.Reaches mem k' m)
    (heq : R.slot mem k l = R.slot mem k' m) : l = m ∧ R.region l k = R.region l k' := by
  have htable := R.table_of_cell h.1 h.2.1 h'.1 h'.2.1 (ht.frame h) (ht.frame h') heq
  obtain ⟨rfl, hregion⟩ := ht.unique h h' htable
  rw [slot, slot, ← htable] at heq
  exact ⟨rfl, R.region_of_cell hregion h.1 h.2.1 (ht.frame h) heq⟩

/-! ### Paths in two memories -/

/-- The memories hold the same on the path of a key above a level. -/
def SamePath (R : Radix K X T C E) (mem mem' : C → E) (k : K) (l : Nat) : Prop :=
  ∀ m, l < m → m ≤ R.levels k → mem' (R.slot mem k m) = mem (R.slot mem k m)

theorem SamePath.tableOf (h : R.SamePath mem mem' k l) (hm : l ≤ m) : R.tableOf mem' k m = R.tableOf mem k m :=
  Descent.table_of_path (R.shape mem mem' k k) (fun j hj hle => congrArg R.next (h j hj hle)) hm

theorem SamePath.slot (h : R.SamePath mem mem' k l) (hm : l ≤ m) : R.slot mem' k m = R.slot mem k m := by
  rw [Radix.slot, Radix.slot, h.tableOf hm]

theorem SamePath.sentAlong (h : R.SamePath mem mem' k l) (hk : R.Reaches mem k l) :
    Descent.SentAlong (R.descent mem k) (R.descent mem' k) (R.levels k) (R.root k) l := by
  intro m hm hle
  have hsends := hk.2.2.sends hm hle
  exact ⟨(congrArg R.present (h m hm hle)).trans hsends.1, (congrArg R.leaf (h m hm hle)).trans hsends.2.1,
    congrArg R.next (h m hm hle)⟩

theorem SamePath.reaches (h : R.SamePath mem mem' k l) (hk : R.Reaches mem k l) : R.Reaches mem' k l :=
  ⟨hk.1, hk.2.1, (h.sentAlong hk).passes (R.shape mem mem' k k)⟩

/-- A path that is the same down to its stop, and there, stops as before. -/
theorem SamePath.stops {s : Stop E} (h : R.SamePath mem mem' k s.level)
    (hs : mem' (R.slot mem k s.level) = mem (R.slot mem k s.level)) (hk : R.Stops mem k s) : R.Stops mem' k s :=
  Descent.stopsAt_of_path (R.shape mem mem' k k) (h.sentAlong hk.reaches) hs hk

/-! ### Memories that are alike -/

/-- The entries say the same of paths, whatever else they say. -/
structure Alike (R : Radix K X T C E) (mem mem' : C → E) : Prop where
  present : ∀ c, R.present (mem' c) = R.present (mem c)
  leaf : ∀ c, R.leaf (mem' c) = R.leaf (mem c)
  next : ∀ c, R.next (mem' c) = R.next (mem c)

theorem Alike.descent (h : R.Alike mem mem') (k : K) : Descent.Alike (R.descent mem k) (R.descent mem' k) where
  toShape := R.shape mem mem' k k
  read_present _ _ := h.present _
  read_leaf _ _ := h.leaf _
  read_next _ _ := h.next _

theorem Alike.tableOf (h : R.Alike mem mem') : R.tableOf mem' k l = R.tableOf mem k l := (h.descent k).table l

theorem Alike.reaches_iff (h : R.Alike mem mem') : R.Reaches mem' k l ↔ R.Reaches mem k l :=
  and_congr_right fun _ => and_congr_right fun _ => (h.descent k).passes_iff

/-- A path stops where it did, on the entry that is there now. -/
theorem Alike.stops {s : Stop E} (h : R.Alike mem mem') (hs : R.Stops mem k s) :
    R.Stops mem' k (Descent.reread (R.descent mem' k) (R.tableOf mem k) s) := (h.descent k).stopsAt hs

theorem Tree.alike (ht : R.Tree mem) (h : R.Alike mem mem') : R.Tree mem' := by
  constructor
  · intro k l hk
    rw [h.tableOf]
    exact ht.frame (h.reaches_iff.mp hk)
  · intro k k' l l' hk hk' heq
    rw [h.tableOf, h.tableOf] at heq
    exact ht.unique (h.reaches_iff.mp hk) (h.reaches_iff.mp hk') heq

/-! ### Writes -/

variable (R) in
/-- A table that no path comes to. -/
structure Fresh (mem : C → E) (t : T) : Prop where
  frame : R.Frame t
  unreached : ∀ {k l}, R.Reaches mem k l → R.tableOf mem k l ≠ t

variable (R) in
/-- What a key stops on when the entry of a level on its path becomes `e`. -/
inductive Leads (mem : C → E) (k : K) : Nat → E → Stop E → Prop where
  | stop {l e} (ht : R.Terminal l e) : Leads mem k l e (R.stopOn l e)
  | link {l e} (hlink : ¬R.Terminal (l + 1) e) (hfresh : R.Fresh mem (R.next e))
    (ht : R.Terminal l (mem (R.cell k l (R.next e)))) :
    Leads mem k (l + 1) e (R.stopOn l (mem (R.cell k l (R.next e))))

/-- The keys of a region stop on what `below` says, the others as before. -/
def assign [DecidableEq X] (l : Nat) (k : K) (below A : K → Stop E) : K → Stop E :=
  fun k' => if R.region l k' = R.region l k then below k' else A k'

def onStop (p : Nat → Prop) [DecidablePred p] (f : E → E) : Stop E → Stop E
  | .absent l => .absent l
  | .ends l e => if p l then .ends l (f e) else .ends l e

/-- The entry that the keys of a region stop on at a level is marked. -/
def marked [DecidableEq X] (l : Nat) (k : K) (f : E → E) (A : K → Stop E) : K → Stop E :=
  fun k' => onStop (fun m => m = l ∧ R.region l k' = R.region l k) f (A k')

variable (R) in
/-- A tree, and what each key stops on in it. -/
structure Holds (mem : C → E) (A : K → Stop E) : Prop where
  tree : R.Tree mem
  stops : ∀ k, R.Stops mem k (A k)

@[simp] theorem stopOn_level (l : Nat) (e : E) : (R.stopOn l e).level = l := by
  unfold stopOn
  split <;> rfl

section Write
variable [DecidableEq C] {A : K → Stop E} {e : E}

theorem alike_update {f : E → E} {c : C} (hp : ∀ e, R.present (f e) = R.present e)
    (hl : ∀ e, R.leaf (f e) = R.leaf e) (hn : ∀ e, R.next (f e) = R.next e) :
    R.Alike mem (Function.update mem c (f (mem c))) := by
  have hsame : ∀ {β : Type} (q : E → β), (∀ e, q (f e) = q e) →
      ∀ c', q (Function.update mem c (f (mem c)) c') = q (mem c') := fun q hq c' => by
    by_cases hc : c' = c
    · rw [hc, Function.update_self, hq]
    · rw [Function.update_of_ne hc]
  exact ⟨hsame _ hp, hsame _ hl, hsame _ hn⟩

/-- Of the cells on paths, a write changes that of one level and one region. -/
theorem Tree.update_slot (ht : R.Tree mem) (h : R.Reaches mem k l) (h' : R.Reaches mem k' m)
    (hne : ¬(m = l ∧ R.region l k' = R.region l k)) :
    Function.update mem (R.slot mem k l) e (R.slot mem k' m) = mem (R.slot mem k' m) := by
  refine Function.update_of_ne (fun heq => hne ?_) e mem
  obtain ⟨rfl, hregion⟩ := ht.slot_inj h h' heq.symm
  exact ⟨rfl, hregion.symm⟩

/-- Above the cell that is written the paths of its region stay. -/
theorem Tree.samePath_above (ht : R.Tree mem) (h : R.Reaches mem k l) (hr : R.region l k' = R.region l k) :
    R.SamePath mem (Function.update mem (R.slot mem k l) e) k' l := by
  intro m hm hle
  have hreach := (h.region (R.region_mono hr.symm (Nat.le_succ l))).above (Nat.le_of_lt hm) hle
  exact ht.update_slot h hreach fun hlm => absurd hlm.1 (Nat.ne_of_gt hm)

/-- The paths of the other regions stay. -/
theorem Tree.samePath_outside (ht : R.Tree mem) (h : R.Reaches mem k l) (hr : R.region l k' ≠ R.region l k)
    (h' : R.Reaches mem k' m) : R.SamePath mem (Function.update mem (R.slot mem k l) e) k' m ∧
      Function.update mem (R.slot mem k l) e (R.slot mem k' m) = mem (R.slot mem k' m) := by
  refine ⟨fun j hj hle => ?_, ht.update_slot h h' fun hlm => hr hlm.2⟩
  exact ht.update_slot h (h'.above (Nat.le_of_lt hj) hle) fun hlm => hr hlm.2

/-- The keys of the region read the entry that was written. -/
theorem Tree.reads (ht : R.Tree mem) (h : R.Reaches mem k l) (hr : R.region l k' = R.region l k) :
    R.Reaches (Function.update mem (R.slot mem k l) e) k' l ∧
      Function.update mem (R.slot mem k l) e (R.slot (Function.update mem (R.slot mem k l) e) k' l) = e := by
  have hsame := ht.samePath_above (e := e) h hr
  refine ⟨hsame.reaches (h.region (R.region_mono hr.symm (Nat.le_succ l))), ?_⟩
  rw [hsame.slot (Nat.le_refl l), slot_region hr.symm h.1 h.2.1, Function.update_self]

/-- The cells of a fresh table are not written. -/
theorem Fresh.update (hf : R.Fresh mem (R.next e)) (ht : R.Tree mem) (h : R.Reaches mem k l)
    (hone : 1 ≤ m) (hle : m ≤ R.levels k') :
    Function.update mem (R.slot mem k l) e (R.cell k' m (R.next e)) = mem (R.cell k' m (R.next e)) := by
  refine Function.update_of_ne (fun heq => ?_) e mem
  exact hf.unreached h (R.table_of_cell hone hle h.1 h.2.1 hf.frame (ht.frame h) heq).symm

/-- What the keys of the region stop on after the write. -/
theorem Tree.stops_inside {s : Stop E} (ht : R.Tree mem) (h : R.Reaches mem k l)
    (hr : R.region l k' = R.region l k) (hs : R.Leads mem k' l e s) :
    R.Stops (Function.update mem (R.slot mem k l) e) k' s := by
  obtain ⟨hreach, hread⟩ := ht.reads (e := e) h hr
  cases hs with
  | stop hterm =>
    have hstops := hreach.stops (by rw [hread]; exact hterm)
    rwa [hread] at hstops
  | @link l _ hlink hfresh hterm =>
    obtain ⟨hbelow, htable⟩ := hreach.below (by rw [hread]; exact hlink)
    rw [hread] at htable
    have hslot : R.slot (Function.update mem (R.slot mem k (l + 1)) e) k' l = R.cell k' l (R.next e) :=
      congrArg (R.cell k' l) htable
    have hkept := hfresh.update ht h hbelow.1 hbelow.2.1
    have hstops := hbelow.stops (by rw [hslot, hkept]; exact hterm)
    rwa [hslot, hkept] at hstops

/-- Where a path comes to after the write: where it came before, or to the fresh table. -/
theorem Holds.reached {below : K → Stop E} (hH : R.Holds mem A) (h : R.Reaches mem k l)
    (hb : ∀ k', R.region l k' = R.region l k → R.Leads mem k' l e (below k'))
    (h' : R.Reaches (Function.update mem (R.slot mem k l) e) k' m) :
    (R.Reaches mem k' m ∧ R.tableOf (Function.update mem (R.slot mem k l) e) k' m = R.tableOf mem k' m) ∨
      (R.Fresh mem (R.next e) ∧ R.tableOf (Function.update mem (R.slot mem k l) e) k' m = R.next e ∧
        l = m + 1 ∧ R.region l k' = R.region l k) := by
  by_cases hr : R.region l k' = R.region l k
  · have habove := hH.tree.samePath_above (e := e) h hr
    have hold : l ≤ m → R.Reaches mem k' m ∧
        R.tableOf (Function.update mem (R.slot mem k l) e) k' m = R.tableOf mem k' m := fun hlm =>
      ⟨(h.region (R.region_mono hr.symm (Nat.le_succ l))).above hlm h'.2.1, habove.tableOf hlm⟩
    have hleads := hb k' hr
    have hstops := hH.tree.stops_inside (e := e) h hr hleads
    generalize below k' = s at hleads hstops
    have hlow := (hstops.reaches_iff.mp h').1
    obtain ⟨hreach, hread⟩ := hH.tree.reads (e := e) h hr
    cases hleads with
    | stop hterm =>
      rw [stopOn_level] at hlow
      exact .inl (hold hlow)
    | @link j _ hlink hfresh hterm =>
      rw [stopOn_level] at hlow
      by_cases hlm : j + 1 ≤ m
      · exact .inl (hold hlm)
      · obtain rfl : m = j := by omega
        have htable := (hreach.below (by rw [hread]; exact hlink)).2
        rw [hread] at htable
        exact .inr ⟨hfresh, htable, rfl, hr⟩
  · have hs := hH.stops k'
    have hsame := hH.tree.samePath_outside (e := e) h hr hs.reaches
    have hlow := ((hsame.1.stops hsame.2 hs).reaches_iff.mp h').1
    exact .inl ⟨hs.reaches.above hlow h'.2.1, hsame.1.tableOf hlow⟩

/-- **A write on a path is an assignment to a region**, and keeps the tree. -/
theorem Holds.write [DecidableEq X] {below : K → Stop E} (hH : R.Holds mem A) (h : R.Reaches mem k l)
    (hb : ∀ k', R.region l k' = R.region l k → R.Leads mem k' l e (below k')) :
    R.Holds (Function.update mem (R.slot mem k l) e) (R.assign l k below A) where
  tree := by
    constructor
    · intro k' m h'
      rcases hH.reached h hb h' with ⟨hreach, htable⟩ | ⟨hfresh, htable, -, -⟩
      · rw [htable]
        exact hH.tree.frame hreach
      · rw [htable]
        exact hfresh.frame
    · intro k₁ k₂ m n h₁ h₂ heq
      rcases hH.reached h hb h₁ with ⟨hreach₁, htable₁⟩ | ⟨hfresh, htable₁, hl₁, hr₁⟩
      · rcases hH.reached h hb h₂ with ⟨hreach₂, htable₂⟩ | ⟨hfresh, htable₂, -, -⟩
        · exact hH.tree.unique hreach₁ hreach₂ (by rw [← htable₁, ← htable₂, heq])
        · exact absurd (by rw [← htable₁, ← htable₂, heq]) (hfresh.unreached hreach₁)
      · rcases hH.reached h hb h₂ with ⟨hreach₂, htable₂⟩ | ⟨-, -, hl₂, hr₂⟩
        · exact absurd (by rw [← htable₁, ← htable₂, heq]) (hfresh.unreached hreach₂)
        · obtain rfl : m = n := Nat.succ.inj (hl₁.symm.trans hl₂)
          rw [← hl₁, hr₁, hr₂]
          exact ⟨rfl, rfl⟩
  stops k' := by
    unfold assign
    split
    case isTrue hr => exact hH.tree.stops_inside h hr (hb k' hr)
    case isFalse hr =>
      have hsame := hH.tree.samePath_outside (e := e) h hr (hH.stops k').reaches
      exact hsame.1.stops hsame.2 (hH.stops k')

/-- A write of an entry that is alike changes that entry alone. -/
theorem Holds.mark [DecidableEq X] {f : E → E} (hH : R.Holds mem A) (h : R.Reaches mem k l)
    (hp : ∀ e, R.present (f e) = R.present e) (hl : ∀ e, R.leaf (f e) = R.leaf e)
    (hn : ∀ e, R.next (f e) = R.next e) :
    R.Holds (Function.update mem (R.slot mem k l) (f (mem (R.slot mem k l)))) (R.marked l k f A) where
  tree := hH.tree.alike (alike_update hp hl hn)
  stops k' := by
    have hstops := (alike_update (c := R.slot mem k l) hp hl hn).stops (hH.stops k')
    have hreach := (hH.stops k').reaches
    have hheld := hH.stops k'
    unfold marked
    generalize A k' = s at hstops hreach hheld
    cases s with
    | absent m => exact hstops
    | ends m e =>
      have hread : R.Reaches mem k' m := hreach
      have hnow : R.Stops (Function.update mem (R.slot mem k l) (f (mem (R.slot mem k l)))) k'
          (.ends m (Function.update mem (R.slot mem k l) (f (mem (R.slot mem k l))) (R.slot mem k' m))) := hstops
      simp only [onStop, hheld.entry]
      split
      case isTrue hml =>
        obtain ⟨rfl, hr⟩ := hml
        rw [slot_region hr.symm h.1 h.2.1] at hnow ⊢
        rwa [Function.update_self] at hnow
      case isFalse hml => rwa [hH.tree.update_slot h hread hml] at hnow

/-- A write to a cell on no path changes nothing. -/
theorem Holds.other {c : C} (hH : R.Holds mem A) (hc : ∀ {k l}, R.Reaches mem k l → R.slot mem k l ≠ c) :
    R.Holds (Function.update mem c e) A := by
  have hread : ∀ {k l}, R.Reaches mem k l → Function.update mem c e (R.slot mem k l) = mem (R.slot mem k l) :=
    fun h => Function.update_of_ne (hc h) e mem
  have hsame : ∀ {k l}, R.Reaches mem k l → R.SamePath mem (Function.update mem c e) k l :=
    fun h _ hm hle => hread (h.above (Nat.le_of_lt hm) hle)
  have hstops : ∀ k, R.Stops (Function.update mem c e) k (A k) := fun k =>
    (hsame (hH.stops k).reaches).stops (hread (hH.stops k).reaches) (hH.stops k)
  have hback : ∀ {k l}, R.Reaches (Function.update mem c e) k l →
      R.Reaches mem k l ∧ R.tableOf (Function.update mem c e) k l = R.tableOf mem k l := fun {k l} h => by
    have hreach : R.Reaches mem k l := (hH.stops k).reaches_iff.mpr ((hstops k).reaches_iff.mp h)
    exact ⟨hreach, (hsame hreach).tableOf (Nat.le_refl l)⟩
  refine ⟨⟨fun h => ?_, fun h h' heq => ?_⟩, hstops⟩
  · rw [(hback h).2]
    exact hH.tree.frame (hback h).1
  · rw [(hback h).2, (hback h').2] at heq
    exact hH.tree.unique (hback h).1 (hback h').1 heq

end Write

/-- Roots of which no entry names a table are a tree. -/
theorem Holds.initial (hlevels : ∀ k, 1 ≤ R.levels k) (hframe : ∀ k, R.Frame (R.root k))
    (hterm : ∀ k, R.Terminal (R.levels k) (mem (R.cell k (R.levels k) (R.root k)))) :
    R.Holds mem fun k => R.stopOn (R.levels k) (mem (R.cell k (R.levels k) (R.root k))) := by
  have hslot : ∀ k, R.slot mem k (R.levels k) = R.cell k (R.levels k) (R.root k) := fun k =>
    congrArg (R.cell k (R.levels k)) ((R.descent mem k).table_top (R.levels k) (R.root k))
  have hreach : ∀ k, R.Reaches mem k (R.levels k) := fun k =>
    ⟨hlevels k, Nat.le_refl _, (R.descent mem k).passes_top (R.levels k) (R.root k)⟩
  have hstops : ∀ k, R.Stops mem k (R.stopOn (R.levels k) (mem (R.cell k (R.levels k) (R.root k)))) := fun k => by
    rw [← hslot]
    exact (hreach k).stops (by rw [hslot]; exact hterm k)
  have htop : ∀ {k l}, R.Reaches mem k l → l = R.levels k ∧ R.tableOf mem k l = R.root k := fun {k l} h => by
    have hlow := ((hstops k).reaches_iff.mp h).1
    rw [stopOn_level] at hlow
    obtain rfl : l = R.levels k := Nat.le_antisymm h.2.1 hlow
    exact ⟨rfl, (R.descent mem k).table_top (R.levels k) (R.root k)⟩
  refine ⟨⟨fun h => ?_, fun {k k' l l'} h h' heq => ?_⟩, hstops⟩
  · rw [(htop h).2]
    exact hframe _
  · rw [(htop h).2, (htop h').2] at heq
    obtain ⟨hl, hregion⟩ := R.region_of_root heq
    rw [(htop h).1, (htop h').1]
    exact ⟨hl, hregion⟩

end Radix
end Iommu.Lib
