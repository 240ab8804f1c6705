import Iommu.Bits
import Iommu.Lib.Descent

/-! The page-table walk.

Both crates keep the same loop (`intel-iommu/src/pagetables.rs`,
`amd-iommu/src/pagetables.rs`); what they do not share is which trees check the
width of the address first and how an entry becomes permission bits, which are
parameters here. So is the time of each read: the closure `fetch` that the loop reads
through is told the level, and a memory that does not change in the meantime ignores it
(`walkWith`). `walkLive_eq` is all that is ever needed of the loop: from an aligned root
it returns, and what it returns is read off the descent of the tree that the reads meet. -/
namespace Iommu.PageTables
open Lib

/-- The index shift of each level, level 1 first (`LEVEL_SHIFT`). -/
def levelShifts : List Nat := [12, 21, 30, 39, 48]

/-- `LEVEL_SHIFT[(level - 1) as usize]`. -/
def levelShift (level : Nat) : Exec Nat := do
  let i ← Exec.sub level 1
  Exec.index levelShifts i

/-- Bits 51:12, the physical address bits of an entry. -/
def paMask : U64 := 0x000ffffffffff000#64

inductive WalkError where
  | notPresent (level : Nat)
  | addressTooLarge (bits : Nat)
  deriving DecidableEq, Repr

/-- A successful walk, over the permission type `P` of a crate. -/
structure WalkResult (P : Type) where
  physical : U64
  level : Nat
  perms : P
  huge : Bool
  deriving DecidableEq, Repr

section Model
variable {P : Type} (permsOf : U64 → P) (vaddr : U64)

section Loop
variable (fetch : Nat → U64 → U64)

/-- The loop, at the level it has counted down to, where `fetch` reads what memory holds
by then. Falling out of it is `unreachable!`. -/
def walkLoop : Nat → U64 → Exec (Except WalkError (WalkResult P))
  | 0, _ => .panics .unreachable
  | n + 1, table => do
    let level := n + 1
    let shift ← levelShift level
    let index ← extractBitsChecked vaddr (shift + 8) shift
    let addr ← Exec.add table (index <<< 3)
    let entry := fetch level addr
    if entry &&& 1#64 = 0#64 then
      return .error (.notPresent level)
    else
      let ps := entry &&& (1#64 <<< 7) ≠ 0#64
      if ps ∨ level = 1 then
        let base := entry &&& paMask
        let offMask := (1#64 <<< shift) - 1#64
        return .ok ⟨base ||| (vaddr &&& offMask), level, permsOf entry, decide (ps ∧ level > 1)⟩
      else
        walkLoop n (entry &&& paMask)

/-- `walk`, with the width check made or not. -/
def walkLive (widthChecked : Bool) (levels : Nat) (root : U64) : Exec (Except WalkError (WalkResult P)) := do
  let topShift ← levelShift levels
  let addrBits := topShift + 9
  if vaddr >>> addrBits ≠ 0#64 ∧ widthChecked then
    return .error (.addressTooLarge addrBits)
  else
    walkLoop permsOf vaddr fetch levels root

end Loop

/-- `walk` on a memory that stays as it is. -/
def walkWith (fetch : U64 → U64) (widthChecked : Bool) (levels : Nat) (root : U64) :
    Exec (Except WalkError (WalkResult P)) :=
  walkLive permsOf vaddr (fun _ => fetch) widthChecked levels root

/-- `index_at`. -/
def indexAt (level : Nat) : Exec Nat := do
  let shift ← levelShift level
  let index ← extractBitsChecked vaddr (shift + 8) shift
  return index.toNat

end Model

/-! ### Levels -/

/-- The shift of a level in closed form. -/
def shiftOf (level : Nat) : Nat := 12 + 9 * (level - 1)

theorem levelShifts_getD {level : Nat} (h : 1 ≤ level) (h5 : level ≤ 5) :
    levelShifts.getD (level - 1) 0 = shiftOf level := by
  have : level = 1 ∨ level = 2 ∨ level = 3 ∨ level = 4 ∨ level = 5 := by omega
  rcases this with rfl | rfl | rfl | rfl | rfl <;> rfl

theorem levelShift_eq {level : Nat} (h : 1 ≤ level) (h5 : level ≤ 5) :
    levelShift level = .returns (shiftOf level) := by
  have hlt : level - 1 < levelShifts.length := Nat.lt_of_lt_of_le (Nat.sub_one_lt_of_lt h) h5
  rw [levelShift, Exec.sub_of_le h, Exec.returns_bind, Exec.index_eq_getD hlt 0, levelShifts_getD h h5]

theorem shiftOf_le {level : Nat} (h5 : level ≤ 5) : shiftOf level ≤ 48 := by
  unfold shiftOf
  omega

theorem shiftOf_mono {k l : Nat} (h : k ≤ l) : shiftOf k ≤ shiftOf l := by
  unfold shiftOf
  omega

/-- The index of an address at a level. -/
def slotOf (vaddr : U64) (level : Nat) : U64 := extractBits vaddr (shiftOf level + 8) (shiftOf level)

theorem extract_slot (vaddr : U64) {level : Nat} (h5 : level ≤ 5) :
    extractBitsChecked vaddr (shiftOf level + 8) (shiftOf level) = .returns (slotOf vaddr level) :=
  extractBitsChecked_eq vaddr (by omega) (by have := shiftOf_le h5; omega)

theorem toNat_slotOf (vaddr : U64) {level : Nat} (h5 : level ≤ 5) :
    (slotOf vaddr level).toNat = vaddr.toNat / 2 ^ shiftOf level % 512 := by
  have hs := shiftOf_le h5
  exact toNat_extractBits vaddr (n := 9) rfl (by decide) (by omega)

theorem slotOf_lt (vaddr : U64) {level : Nat} (h5 : level ≤ 5) : (slotOf vaddr level).toNat < 512 := by
  rw [toNat_slotOf vaddr h5]
  exact Nat.mod_lt _ (by decide)

theorem indexAt_eq (vaddr : U64) {level : Nat} (h : 1 ≤ level) (h5 : level ≤ 5) :
    indexAt vaddr level = .returns (slotOf vaddr level).toNat := by
  simp only [indexAt, levelShift_eq h h5, extract_slot vaddr h5, Exec.returns_bind, Exec.pure_eq]

/-! ### Frames and offsets -/

/-- A table address, or a frame, of a 4 KiB page. -/
def Aligned (a : U64) : Prop := a.toNat % 4096 = 0

theorem paMask_eq : paMask = Word.mask 64 12 40 := rfl

theorem toNat_and_paMask (e : U64) : (e &&& paMask).toNat = e.toNat / 4096 % 2 ^ 40 * 4096 := by
  rw [paMask_eq, Word.and_mask, Word.toNat_place 12 _ (by decide), BitVec.extractLsb'_toNat,
    Nat.shiftRight_eq_div_pow]
  rfl

theorem aligned_and_paMask (e : U64) : Aligned (e &&& paMask) := by
  rw [Aligned, toNat_and_paMask]
  omega

/-- The offset of an address in a page of a level. -/
def offsetOf (vaddr : U64) (level : Nat) : U64 := vaddr &&& ((1#64 <<< shiftOf level) - 1#64)

theorem toNat_offsetOf (vaddr : U64) {level : Nat} (h5 : level ≤ 5) :
    (offsetOf vaddr level).toNat = vaddr.toNat % 2 ^ shiftOf level := by
  have hs := shiftOf_le h5
  rw [offsetOf, Word.one_shift_sub_one (by omega), Word.toNat_and_mask_zero _ (by omega)]

/-- On a base that is clear below the page size, the offset is added by the OR. -/
theorem toNat_or_offsetOf {base : U64} {level : Nat} (h5 : level ≤ 5)
    (hb : base.toNat % 2 ^ shiftOf level = 0) (vaddr : U64) :
    (base ||| offsetOf vaddr level).toNat = base.toNat + vaddr.toNat % 2 ^ shiftOf level := by
  have hlt : vaddr.toNat % 2 ^ shiftOf level < 2 ^ shiftOf level := Nat.mod_lt _ (Nat.two_pow_pos _)
  obtain ⟨q, hq⟩ := Nat.dvd_of_mod_eq_zero hb
  rw [BitVec.toNat_or, toNat_offsetOf vaddr h5, hq, ← Nat.two_pow_add_eq_or_of_lt hlt]

/-! ### The tree in memory -/

/-- The address of the entry that a level reads in a table. -/
def entryAddr (vaddr : U64) (level : Nat) (table : U64) : U64 := table + 8#64 * slotOf vaddr level

/-- The tree that `vaddr` descends, each level as it is when it is read: bit 0 is
present, bit 7 ends the descent, bits 51:12 name the next table. -/
def liveTree (vaddr : U64) (fetch : Nat → U64 → U64) : Descent U64 U64 where
  read level table := fetch level (entryAddr vaddr level table)
  present e := e.getLsbD 0
  leaf e := e.getLsbD 7
  next e := e &&& paMask

/-- The tree that a memory holds. -/
def tree (vaddr : U64) (fetch : U64 → U64) : Descent U64 U64 := liveTree vaddr fun _ => fetch

@[simp] theorem tree_read (vaddr : U64) (fetch : U64 → U64) (level : Nat) (table : U64) :
    (tree vaddr fetch).read level table = fetch (entryAddr vaddr level table) := rfl

@[simp] theorem tree_present (vaddr : U64) (fetch : U64 → U64) (e : U64) :
    (tree vaddr fetch).present e = e.getLsbD 0 := rfl

@[simp] theorem tree_leaf (vaddr : U64) (fetch : U64 → U64) (e : U64) :
    (tree vaddr fetch).leaf e = e.getLsbD 7 := rfl

@[simp] theorem tree_next (vaddr : U64) (fetch : U64 → U64) (e : U64) :
    (tree vaddr fetch).next e = e &&& paMask := rfl

/-- What a descent that stops on `e` at level `k` translates to. -/
def leafResult {P : Type} (permsOf : U64 → P) (vaddr : U64) (k : Nat) (e : U64) : WalkResult P :=
  ⟨(e &&& paMask) ||| offsetOf vaddr k, k, permsOf e, decide (e.getLsbD 7 = true ∧ k > 1)⟩

/-- What a walk returns for where its descent stops. -/
def report {P : Type} (permsOf : U64 → P) (vaddr : U64) : Option (Stop U64) →
    Exec (Except WalkError (WalkResult P))
  | none => .panics .unreachable
  | some (.absent k) => .returns (.error (.notPresent k))
  | some (.ends k e) => .returns (.ok (leafResult permsOf vaddr k e))

/-- The entry of a level never lies past the end of an aligned table, nor of the
address space. -/
theorem entryAddr_no_wrap (vaddr : U64) {level : Nat} {table : U64} (h5 : level ≤ 5)
    (ha : Aligned table) : table.toNat + 8 * (slotOf vaddr level).toNat < 2 ^ 64 := by
  have ht := table.isLt
  have hs := slotOf_lt vaddr h5
  unfold Aligned at ha
  omega

theorem toNat_slot_shift (vaddr : U64) {level : Nat} (h5 : level ≤ 5) :
    (slotOf vaddr level <<< 3).toNat = 8 * (slotOf vaddr level).toNat := by
  have hs := slotOf_lt vaddr h5
  rw [BitVec.toNat_shiftLeft, Nat.shiftLeft_eq, Nat.mul_comm]
  exact Nat.mod_eq_of_lt (by omega)

theorem add_slot (vaddr : U64) {level : Nat} {table : U64} (h5 : level ≤ 5)
    (hfit : table.toNat + 8 * (slotOf vaddr level).toNat < 2 ^ 64) :
    Exec.add table (slotOf vaddr level <<< 3) = .returns (entryAddr vaddr level table) := by
  have hmul : slotOf vaddr level <<< 3 = 8#64 * slotOf vaddr level :=
    (BitVec.twoPow_mul_eq_shiftLeft (slotOf vaddr level) 3).symm
  rw [Exec.add_of_lt (by rw [toNat_slot_shift vaddr h5]; exact hfit), hmul]
  rfl

section Refinement
variable {P : Type} (permsOf : U64 → P) (vaddr : U64)

section Loop
variable (fetch : Nat → U64 → U64)

/-- One turn of the loop, by the two bits of the entry that decide it. -/
theorem walkLoop_step {n : Nat} (h5 : n + 1 ≤ 5) {table : U64}
    (hfit : table.toNat + 8 * (slotOf vaddr (n + 1)).toNat < 2 ^ 64) {e : U64}
    (he : fetch (n + 1) (entryAddr vaddr (n + 1) table) = e) :
    walkLoop permsOf vaddr fetch (n + 1) table =
      if e.getLsbD 0 = false then .returns (.error (.notPresent (n + 1)))
      else if e.getLsbD 7 = true ∨ n = 0 then .returns (.ok (leafResult permsOf vaddr (n + 1) e))
      else walkLoop permsOf vaddr fetch n (e &&& paMask) := by
  have hone : n + 1 = 1 ↔ n = 0 := by omega
  have h0 := Word.and_one_eq_zero e
  have h7 : e &&& (1#64 <<< 7) ≠ 0#64 ↔ e.getLsbD 7 = true := by
    rw [ne_eq, Word.and_bit_eq_zero, Bool.not_eq_false]
  simp only [walkLoop, levelShift_eq (Nat.succ_pos n) h5, extract_slot vaddr h5, add_slot vaddr h5 hfit,
    Exec.returns_bind, Exec.pure_eq, he, h0, h7, hone]
  rfl

/-- From a table whose entry is within the address space the loop is the descent:
every table below is aligned, and its entries are. -/
theorem walkLoop_of_fit (levels : Nat) (h5 : levels ≤ 5) (root : U64)
    (hfit : root.toNat + 8 * (slotOf vaddr levels).toNat < 2 ^ 64) :
    walkLoop permsOf vaddr fetch levels root =
      report permsOf vaddr ((liveTree vaddr fetch).resolve levels root) := by
  induction levels generalizing root with
  | zero => rfl
  | succ n ih =>
    let e := fetch (n + 1) (entryAddr vaddr (n + 1) root)
    have hrest := ih (by omega) _ (entryAddr_no_wrap vaddr (show n ≤ 5 by omega) (aligned_and_paMask e))
    have hread : (liveTree vaddr fetch).read (n + 1) root = e := rfl
    rw [walkLoop_step permsOf vaddr fetch h5 hfit rfl, Descent.resolve, hrest, hread]
    show _ = report permsOf vaddr (if e.getLsbD 0 = false then _ else if e.getLsbD 7 = true ∨ n = 0 then _ else _)
    by_cases hp : e.getLsbD 0 = false
    · rw [if_pos hp, if_pos hp]
      rfl
    · by_cases hl : e.getLsbD 7 = true ∨ n = 0
      · rw [if_neg hp, if_neg hp, if_pos hl, if_pos hl]
        rfl
      · rw [if_neg hp, if_neg hp, if_neg hl, if_neg hl]
        rfl

/-- Past the address space the first entry is never read. -/
theorem walkLoop_overflow {levels : Nat} (h : 1 ≤ levels) (h5 : levels ≤ 5) {root : U64}
    (hfit : ¬root.toNat + 8 * (slotOf vaddr levels).toNat < 2 ^ 64) :
    walkLoop permsOf vaddr fetch levels root = .panics .overflow := by
  obtain ⟨n, rfl⟩ := Nat.exists_eq_add_of_le' h
  have hadd : Exec.add root (slotOf vaddr (n + 1) <<< 3) = .panics .overflow := by
    rw [Exec.add, toNat_slot_shift vaddr h5, if_neg hfit]
  simp only [walkLoop, levelShift_eq (Nat.succ_pos n) h5, extract_slot vaddr h5, hadd, Exec.returns_bind]
  rfl

/-- A walk that passes the width check is its loop. -/
theorem walkLive_loop {widthChecked : Bool} {levels : Nat} (h : 1 ≤ levels) (h5 : levels ≤ 5) (root : U64)
    (hw : widthChecked = true → vaddr >>> (shiftOf levels + 9) = 0#64) :
    walkLive permsOf vaddr fetch widthChecked levels root = walkLoop permsOf vaddr fetch levels root := by
  have hpass : ¬(vaddr >>> (shiftOf levels + 9) ≠ 0#64 ∧ widthChecked = true) :=
    fun ⟨hne, hc⟩ => hne (hw hc)
  simp only [walkLive, levelShift_eq h h5, Exec.returns_bind, if_neg hpass]

/-- **A walk that passes the width check is the descent of the tree that it meets.** -/
theorem walkLive_eq {widthChecked : Bool} {levels : Nat} (h : 1 ≤ levels) (h5 : levels ≤ 5) (root : U64)
    (ha : Aligned root) (hw : widthChecked = true → vaddr >>> (shiftOf levels + 9) = 0#64) :
    walkLive permsOf vaddr fetch widthChecked levels root =
      report permsOf vaddr ((liveTree vaddr fetch).resolve levels root) := by
  rw [walkLive_loop permsOf vaddr fetch h h5 root hw]
  exact walkLoop_of_fit permsOf vaddr fetch levels h5 root (entryAddr_no_wrap vaddr h5 ha)

end Loop

variable (fetch : U64 → U64)

theorem walkWith_loop {widthChecked : Bool} {levels : Nat} (h : 1 ≤ levels) (h5 : levels ≤ 5) (root : U64)
    (hw : widthChecked = true → vaddr >>> (shiftOf levels + 9) = 0#64) :
    walkWith permsOf vaddr fetch widthChecked levels root = walkLoop permsOf vaddr (fun _ => fetch) levels root :=
  walkLive_loop permsOf vaddr (fun _ => fetch) h h5 root hw

/-- On a memory that stays as it is, that is the tree it holds. -/
theorem walkWith_eq {widthChecked : Bool} {levels : Nat} (h : 1 ≤ levels) (h5 : levels ≤ 5) (root : U64)
    (ha : Aligned root) (hw : widthChecked = true → vaddr >>> (shiftOf levels + 9) = 0#64) :
    walkWith permsOf vaddr fetch widthChecked levels root =
      report permsOf vaddr ((tree vaddr fetch).resolve levels root) :=
  walkLive_eq permsOf vaddr (fun _ => fetch) h h5 root ha hw

/-- A walk that fails it reads no entry. -/
theorem walkWith_too_large {levels : Nat} (h : 1 ≤ levels) (h5 : levels ≤ 5) (root : U64)
    (hw : vaddr >>> (shiftOf levels + 9) ≠ 0#64) :
    walkWith permsOf vaddr fetch true levels root =
      .returns (.error (.addressTooLarge (shiftOf levels + 9))) := by
  simp only [walkWith, walkLive, levelShift_eq h h5, Exec.returns_bind, ne_eq, hw, not_false_eq_true, and_self,
    if_true, Exec.pure_eq]

end Refinement

end Iommu.PageTables
