import Iommu.PageTables.Laws

/-! Chains of table entries.

To map an address is to write an entry in one slot of each table on its way down: one
that links to the next table at every level but the last, and a leaf in the last. What
a link must be for the walkers to go through it is `Links`, and an address that is
chained to a leaf walks to it (`Chained.walk`). -/
namespace Iommu.PageTables
open Lib

/-- The address of slot `i` of a table. -/
def slotAddr (table : U64) (i : Nat) : U64 := table + 8#64 * BitVec.ofNat 64 i

/-- The slots of `v` from `table` at a level down to level `k`: each above `k` links to
an aligned table, and that of level `k` holds the leaf. -/
inductive Chained (fetch : U64 → U64) (v : U64) (link : U64 → U64) (leaf : U64) (k : Nat) :
    Nat → U64 → Prop where
  | leaf {i table} (hi : indexAt v k = .returns i) (he : fetch (slotAddr table i) = leaf) :
    Chained fetch v link leaf k k table
  | link {n i table} (next : U64) (hi : indexAt v (n + 1) = .returns i) (ha : Aligned next)
    (h52 : next.toNat < 2 ^ 52) (he : fetch (slotAddr table i) = link next)
    (hnext : Chained fetch v link leaf k n next) : Chained fetch v link leaf k (n + 1) table

/-- Entries that a walk goes through to the table they are built for. -/
structure Links (link : U64 → U64) : Prop where
  present : ∀ next, (link next).getLsbD 0 = true
  not_leaf : ∀ next, (link next).getLsbD 7 = false
  frame : ∀ next, link next &&& paMask = next &&& paMask

/-! ### Frames -/

/-- A frame is its own address bits. -/
theorem Aligned.and_paMask {x : U64} (h : Aligned x) (h52 : x.toNat < 2 ^ 52) : x &&& paMask = x := by
  apply BitVec.eq_of_toNat_eq
  rw [toNat_and_paMask]
  unfold Aligned at h
  omega

/-- Flags outside the address bits leave the frame of an entry. -/
theorem frame_or {f : U64} (hf : f &&& paMask = 0#64) (x : U64) :
    ((x &&& paMask) ||| f) &&& paMask = x &&& paMask := by
  rw [BitVec.and_or_distrib_right, BitVec.and_assoc, BitVec.and_self, hf, BitVec.or_zero]

/-- A frame leaves the flags of an entry. -/
theorem flag_or (f x : U64) {i : Nat} (hi : i < 12) : ((x &&& paMask) ||| f).getLsbD i = f.getLsbD i := by
  have hout : paMask.getLsbD i = false := by
    rw [paMask_eq, Word.getLsbD_mask]
    simp [hi]
  rw [BitVec.getLsbD_or, BitVec.getLsbD_and, hout, Bool.and_false, Bool.false_or]

/-- Links of a frame and flags. -/
theorem links_of_flags {f : U64} (hp : f.getLsbD 0 = true) (hl : f.getLsbD 7 = false) (hf : f &&& paMask = 0#64) :
    Links fun next => (next &&& paMask) ||| f where
  present := fun next => by rw [flag_or f next (by decide), hp]
  not_leaf := fun next => by rw [flag_or f next (by decide), hl]
  frame := frame_or hf

theorem entryAddr_eq (v : U64) (l : Nat) (table : U64) :
    entryAddr v l table = slotAddr table (slotOf v l).toNat := by
  rw [entryAddr, slotAddr, BitVec.ofNat_toNat, BitVec.setWidth_eq]

/-! ### Walks -/

section Walk
variable {fetch : U64 → U64} {v : U64} {link : U64 → U64} {leaf : U64} {k levels : Nat} {root : U64}

theorem Chained.le (h : Chained fetch v link leaf k levels root) : k ≤ levels := by
  induction h with
  | leaf => exact Nat.le_refl k
  | link _ _ _ _ _ _ ih => exact Nat.le_succ_of_le ih

/-- The descent reads the slot that the index names. -/
theorem read_of_index {l i : Nat} {table : U64} (h1 : 1 ≤ l) (h5 : l ≤ 5) (hi : indexAt v l = .returns i) :
    (tree v fetch).read l table = fetch (slotAddr table i) := by
  rw [indexAt_eq v h1 h5, Exec.returns.injEq] at hi
  rw [tree_read, entryAddr_eq, hi]

/-- A chain descends to its leaf. -/
theorem Chained.resolve (hlink : Links link) (h : Chained fetch v link leaf k levels root) (h1 : 1 ≤ k)
    (h5 : levels ≤ 5) (hp : leaf.getLsbD 0 = true) (hl : leaf.getLsbD 7 = true ∨ k = 1) :
    (tree v fetch).resolve levels root = some (.ends k leaf) := by
  induction h with
  | leaf hi he =>
    obtain ⟨n, rfl⟩ := Nat.exists_eq_add_of_le' h1
    have hlast : leaf.getLsbD 7 = true ∨ n = 0 := hl.imp_right (Nat.succ.inj ·)
    rw [Descent.resolve, read_of_index h1 h5 hi, he]
    simp only [tree_present, tree_leaf, hp, hlast, Bool.true_eq_false, if_false, if_true]
  | @link n i table next hi ha h52 he hnext ih =>
    have hpos : n ≠ 0 := Nat.ne_of_gt (Nat.lt_of_lt_of_le h1 hnext.le)
    have hframe : link next &&& paMask = next := by
      rw [hlink.frame, ha.and_paMask h52]
    rw [Descent.resolve, read_of_index (Nat.succ_pos n) h5 hi, he]
    simp only [tree_present, tree_leaf, tree_next, hlink.present, hlink.not_leaf, hframe, hpos, Bool.true_eq_false,
      Bool.false_eq_true, or_self, if_false, ih (by omega)]

/-- **A chained address walks to its leaf.** -/
theorem Chained.walk {P : Type} {permsOf : U64 → P} {widthChecked : Bool} (hlink : Links link)
    (h : Chained fetch v link leaf k levels root) (h1 : 1 ≤ k) (h5 : levels ≤ 5) (hr : Aligned root)
    (hw : widthChecked = true → v >>> (shiftOf levels + 9) = 0#64) (hp : leaf.getLsbD 0 = true)
    (hl : leaf.getLsbD 7 = true ∨ k = 1) :
    walkWith permsOf v fetch widthChecked levels root = .returns (.ok (leafResult permsOf v k leaf)) := by
  rw [walkWith_eq permsOf v fetch (Nat.le_trans h1 h.le) h5 root hr hw, h.resolve hlink h1 h5 hp hl]
  rfl

end Walk

/-- The byte of a page that a walk translates to. -/
theorem leafResult_physical {P : Type} (permsOf : U64 → P) {leaf h : U64} {k : Nat} (v : U64) (h5 : k ≤ 5)
    (hframe : leaf &&& paMask = h) (hh : h.toNat % 2 ^ shiftOf k = 0) :
    (leafResult permsOf v k leaf).physical.toNat = h.toNat + v.toNat % 2 ^ shiftOf k := by
  rw [leafResult, hframe, toNat_or_offsetOf h5 hh v]

end Iommu.PageTables
