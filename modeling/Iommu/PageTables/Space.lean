import Iommu.Lib.Radix
import Iommu.PageTables.Chains
import Iommu.Lib.Positional

/-! Address spaces in one memory.

A caller keeps the tables of its domains in one memory and writes entries into them: a
leaf or an empty entry over an entry of a path, a link to a table that it has prepared,
anything at all where no path goes. That is what a run of updates does to the memory
(`run`). To the caller each domain is an address space, a map from addresses to pages,
and an update assigns one page of it (`Update.view`), whatever the tables are. -/
namespace Iommu.PageTables
open Lib

/-- The domains that share a memory: a root for each, of which no two are the same table. -/
structure Domains (D : Type) where
  root : D → U64
  levels : D → Nat
  levels_pos : ∀ d, 1 ≤ levels d
  levels_le : ∀ d, levels d ≤ 5
  root_aligned : ∀ d, Aligned (root d)
  root_injective : ∀ d d', root d = root d' → d = d'

/-- An address that the tree of its domain has bits for. -/
structure Iova {D : Type} (S : Domains D) where
  domain : D
  addr : U64
  within : addr.toNat < 2 ^ (12 + 9 * S.levels domain)

/-! ### Cells -/

theorem toNat_entryAddr (v : U64) {l : Nat} {table : U64} (h5 : l ≤ 5) (ha : Aligned table) :
    (entryAddr v l table).toNat = table.toNat + 8 * (slotOf v l).toNat := by
  have hfit := entryAddr_no_wrap v h5 ha
  have hslot := slotOf_lt v h5
  have hmul : (8#64 * slotOf v l).toNat = 8 * (slotOf v l).toNat := by
    rw [BitVec.toNat_mul, BitVec.toNat_ofNat]
    omega
  rw [entryAddr, BitVec.toNat_add, hmul]
  exact Nat.mod_eq_of_lt hfit

/-- Entries of two frames are apart, and so are the entries of one. -/
theorem entryAddr_inj {v v' : U64} {l l' : Nat} {t t' : U64} (h5 : l ≤ 5) (h5' : l' ≤ 5) (ha : Aligned t)
    (ha' : Aligned t') (h : entryAddr v l t = entryAddr v' l' t') :
    t = t' ∧ (slotOf v l).toNat = (slotOf v' l').toNat := by
  have hnat := congrArg BitVec.toNat h
  rw [toNat_entryAddr v h5 ha, toNat_entryAddr v' h5' ha'] at hnat
  have hslot := slotOf_lt v h5
  have hslot' := slotOf_lt v' h5'
  unfold Aligned at ha ha'
  exact ⟨BitVec.eq_of_toNat_eq (by omega), by omega⟩

/-- A page number and the index below it. -/
theorem page_succ (v : U64) {l : Nat} (h1 : 1 ≤ l) (h5 : l ≤ 5) :
    v.toNat / 2 ^ shiftOf l = v.toNat / 2 ^ shiftOf (l + 1) * 512 + (slotOf v l).toNat := by
  have hshift : shiftOf (l + 1) = shiftOf l + 9 := by
    unfold shiftOf
    omega
  rw [toNat_slotOf v h5, hshift, Nat.pow_add, ← Nat.div_div_eq_div_mul]
  exact (Nat.div_add_mod' _ 512).symm

theorem slot_of_page {v v' : U64} {l : Nat} (h5 : l ≤ 5) (h : v.toNat / 2 ^ shiftOf l = v'.toNat / 2 ^ shiftOf l) :
    slotOf v l = slotOf v' l := by
  apply BitVec.eq_of_toNat_eq
  rw [toNat_slotOf v h5, toNat_slotOf v' h5, h]

/-- A tree has no bits above its root. -/
theorem Iova.page_top {D : Type} {S : Domains D} (k : Iova S) :
    k.addr.toNat / 2 ^ shiftOf (S.levels k.domain + 1) = 0 := Nat.div_eq_of_lt k.within

section Trees
variable {D : Type} (S : Domains D)

/-- The trees of the domains: the region of a level is the page of that size in a domain. -/
def trees : Radix (Iova S) (D × Nat) U64 U64 U64 where
  region l k := (k.domain, k.addr.toNat / 2 ^ shiftOf l)
  root k := S.root k.domain
  levels k := S.levels k.domain
  cell k l t := entryAddr k.addr l t
  present e := e.getLsbD 0
  leaf e := e.getLsbD 7
  next e := e &&& paMask
  Frame := Aligned
  region_mono h hm := by
    obtain ⟨hd, hpage⟩ := Prod.mk.injEq _ _ _ _ ▸ h
    exact Prod.ext hd (Positional.div_congr hpage (shiftOf_mono hm))
  root_of_region h := by
    obtain ⟨hd, -⟩ := Prod.mk.injEq _ _ _ _ ▸ h
    exact ⟨congrArg S.root hd, congrArg S.levels hd⟩
  region_of_root {k k'} h := by
    have hd := S.root_injective _ _ h
    refine ⟨congrArg S.levels hd, Prod.ext hd ?_⟩
    have htop := k'.page_top
    rw [← hd] at htop
    exact k.page_top.trans htop.symm
  cell_of_region {l k k'} h _ hle t := by
    obtain ⟨-, hpage⟩ := Prod.mk.injEq _ _ _ _ ▸ h
    rw [entryAddr, entryAddr, slot_of_page (Nat.le_trans hle (S.levels_le _)) hpage]
  region_of_cell {l k k' t} h h1 hle ha hcell := by
    obtain ⟨hd, hpage⟩ := Prod.mk.injEq _ _ _ _ ▸ h
    have h5 := Nat.le_trans hle (S.levels_le _)
    have hslot := (entryAddr_inj h5 h5 ha ha hcell).2
    refine Prod.ext hd ?_
    rw [page_succ k.addr h1 h5, page_succ k'.addr h1 h5, hpage, hslot]
  table_of_cell _ hle _ hle' ha ha' hcell :=
    (entryAddr_inj (Nat.le_trans hle (S.levels_le _)) (Nat.le_trans hle' (S.levels_le _)) ha ha' hcell).1

end Trees

/-! ### Updates -/

/-- The entries that a crate builds, for rights of type `Q`, and what its walker is to
them: which addresses it refuses, and what permissions it reads. -/
structure Builders (Q P : Type) where
  empty : U64
  leaf : Nat → U64 → Q → U64
  link : U64 → U64
  permsOf : U64 → P
  widthChecked : Bool
  empty_absent : empty.getLsbD 0 = false
  leaf_present : ∀ l paddr rights, (leaf l paddr rights).getLsbD 0 = true
  leaf_size : ∀ l paddr rights, (leaf l paddr rights).getLsbD 7 = decide (l > 1)
  leaf_frame : ∀ l paddr rights, leaf l paddr rights &&& paMask = paddr &&& paMask
  links : Links link

/-- A change of an entry that a walk does not see. -/
structure Mark where
  mark : U64 → U64
  present : ∀ e, (mark e).getLsbD 0 = e.getLsbD 0
  size : ∀ e, (mark e).getLsbD 7 = e.getLsbD 7
  frame : ∀ e, mark e &&& paMask = e &&& paMask

/-- What is done to the tables, by the caller or the hardware. -/
inductive Update {D : Type} (S : Domains D) (Q : Type) where
  /-- A leaf of a level over the entry of an address. -/
  | map : Iova S → Nat → U64 → Q → Update S Q
  | unmap : Iova S → Nat → Update S Q
  /-- A link to a table of a level, and the entries that were put in it before. -/
  | link : Iova S → Nat → U64 → (Nat → U64) → Update S Q
  | mark : Iova S → Nat → Mark → Update S Q
  /-- A write where no path goes. -/
  | other : U64 → U64 → Update S Q

section Updates
variable {D Q P : Type} {S : Domains D} (B : Builders Q P)

namespace Iova
variable (k : Iova S) (mem : U64 → U64)

/-- The path of the address comes down to a level. -/
def Reaches (l : Nat) : Prop :=
  1 ≤ l ∧ l ≤ S.levels k.domain ∧ PassesTo mem k.addr (S.levels k.domain) (S.root k.domain) l

/-- The table of a level on the path. -/
def table (l : Nat) : U64 := pathTable mem k.addr (S.levels k.domain) (S.root k.domain) l

/-- The address of the entry of a level on the path. -/
def slot (l : Nat) : U64 := pathAddr mem k.addr (S.levels k.domain) (S.root k.domain) l

end Iova

/-- A table that may be linked: no path comes to it, and its entries are empty or are
leaves on their own boundaries. -/
structure Prepared (S : Domains D) (mem : U64 → U64) (l : Nat) (table : U64) (entries : Nat → U64) : Prop where
  aligned : Aligned table
  fits : table.toNat < 2 ^ 52
  unreached : ∀ (k : Iova S) m, k.Reaches mem m → k.table mem m ≠ table
  held : ∀ i < 512, mem (slotAddr table i) = entries i
  leaves : ∀ i < 512, (entries i).getLsbD 0 = true →
    ((entries i).getLsbD 7 = true ∨ l = 1) ∧ (entries i &&& paMask).toNat % 2 ^ shiftOf l = 0

namespace Update

/-- Where an update writes. -/
def place (mem : U64 → U64) : Update S Q → U64
  | map k l _ _ => k.slot mem l
  | unmap k l => k.slot mem l
  | link k l _ _ => k.slot mem (l + 1)
  | mark k l _ => k.slot mem l
  | other a _ => a

/-- What it writes there. -/
def value (mem : U64 → U64) : Update S Q → U64
  | map _ l paddr rights => B.leaf l paddr rights
  | unmap _ _ => B.empty
  | link _ _ next _ => B.link next
  | mark k l m => m.mark (mem (k.slot mem l))
  | other _ value => value

def apply (mem : U64 → U64) (u : Update S Q) : U64 → U64 :=
  Function.update mem (u.place mem) (u.value B mem)

/-- What the caller sees to before an update. -/
def Allowed (mem : U64 → U64) : Update S Q → Prop
  | map k l paddr _ => k.Reaches mem l ∧ paddr.toNat % 2 ^ shiftOf l = 0 ∧ paddr.toNat < 2 ^ 52
  | unmap k l => k.Reaches mem l
  | link k l next entries => 1 ≤ l ∧ k.Reaches mem (l + 1) ∧ Prepared S mem l next entries
  | mark k l _ => k.Reaches mem l
  | other a _ => ∀ (k : Iova S) l, k.Reaches mem l → k.slot mem l ≠ a

end Update

/-- What each address of each domain stops on: a page, or a hole of some size. -/
abbrev Space (S : Domains D) : Type := Iova S → Stop U64

/-- What an entry says at a level that nothing is below. -/
def stopAt (l : Nat) (e : U64) : Stop U64 := if e.getLsbD 0 = true then .ends l e else .absent l

namespace Space
variable [DecidableEq D] (A : Space S)

/-- The addresses on one page of a level, in one domain. -/
def OnPage (l : Nat) (k k' : Iova S) : Prop :=
  k'.domain = k.domain ∧ k'.addr.toNat / 2 ^ shiftOf l = k.addr.toNat / 2 ^ shiftOf l

instance (l : Nat) (k k' : Iova S) : Decidable (OnPage l k k') := inferInstanceAs (Decidable (_ ∧ _))

/-- A page assigned. -/
def assign (l : Nat) (k : Iova S) (below : Space S) : Space S := fun k' => if OnPage l k k' then below k' else A k'

def marked (l : Nat) (k : Iova S) (m : Mark) : Space S := fun k' =>
  Radix.onStop (fun j => j = l ∧ OnPage l k k') m.mark (A k')

/-- An address space with nothing in it. -/
def empty (S : Domains D) : Space S := fun k => .absent (S.levels k.domain)

end Space

/-- The memory after a run of updates. -/
def run (mem : U64 → U64) : List (Update S Q) → U64 → U64
  | [] => mem
  | u :: us => run (u.apply B mem) us

def AllowedRun (mem : U64 → U64) : List (Update S Q) → Prop
  | [] => True
  | u :: us => u.Allowed mem ∧ AllowedRun (u.apply B mem) us

theorem run_append (mem : U64 → U64) (us us' : List (Update S Q)) :
    run B mem (us ++ us') = run B (run B mem us) us' := by
  induction us generalizing mem with
  | nil => rfl
  | cons u us ih => exact ih _

theorem run_eq_foldl (mem : U64 → U64) (us : List (Update S Q)) :
    run B mem us = us.foldl (fun mem u => u.apply B mem) mem := by
  induction us generalizing mem with
  | nil => rfl
  | cons u us ih => exact ih _

theorem allowedRun_append {mem : U64 → U64} {us us' : List (Update S Q)} :
    AllowedRun B mem (us ++ us') ↔ AllowedRun B mem us ∧ AllowedRun B (run B mem us) us' := by
  induction us generalizing mem with
  | nil => exact iff_of_eq (true_and _).symm
  | cons u us ih =>
    rw [List.cons_append, AllowedRun, AllowedRun, ih, and_assoc]
    rfl

variable [DecidableEq D]

/-- What an update is to the address spaces. -/
def Update.view (A : Space S) : Update S Q → Space S
  | map k l paddr rights => A.assign l k fun _ => .ends l (B.leaf l paddr rights)
  | unmap k l => A.assign l k fun _ => .absent l
  | link k l _ entries => A.assign (l + 1) k fun k' => stopAt l (entries (slotOf k'.addr l).toNat)
  | mark k l m => A.marked l k m
  | other _ _ => A

/-- The address spaces after it. -/
def spaceAfter (A : Space S) : List (Update S Q) → Space S
  | [] => A
  | u :: us => spaceAfter (u.view B A) us

end Updates

end Iommu.PageTables
