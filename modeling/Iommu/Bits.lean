import Iommu.Lib.Layout
import Iommu.Lib.Exec

/-! The bit extraction that every decoder of both crates uses (`bits.rs`, the same
function in each). -/
namespace Iommu
open Lib

abbrev U8 := BitVec 8
abbrev U16 := BitVec 16
abbrev U32 := BitVec 32
abbrev U64 := BitVec 64

/-! ### Arrays of words -/

/-- The `[u32; 4]` of a command or log entry. -/
structure Dwords where
  d0 : U32
  d1 : U32
  d2 : U32
  d3 : U32
  deriving DecidableEq, Repr

/-- A place in `Dwords`. -/
inductive Dwords.At where
  | d0 | d1 | d2 | d3
  deriving DecidableEq

/-- The `[u64; 2]` of a descriptor. -/
structure Words where
  w0 : U64
  w1 : U64
  deriving DecidableEq, Repr

/-- A place in `Words`. -/
inductive Words.At where
  | w0 | w1
  deriving DecidableEq

/-- The `[u64; 4]` of a 256-bit queue slot. -/
structure Words4 where
  w0 : U64
  w1 : U64
  w2 : U64
  w3 : U64
  deriving DecidableEq, Repr

/-! ### Extraction -/

/-- A `bool` cast to an unsigned type. -/
def boolAs (w : Nat) (b : Bool) : BitVec w := (BitVec.ofBool b).setWidth w

/-- The mask of `extract_bits`, with its special case for a whole word. -/
def extractMask (width : Nat) : U64 :=
  if width ≥ 64 then BitVec.allOnes 64 else (1#64 <<< width) - 1#64

/-- Bits `hi..=lo` of `value`, right-aligned. -/
def extractBits (value : U64) (hi lo : Nat) : U64 := (value >>> lo) &&& extractMask (hi - lo + 1)

/-- `extract_bits` with its assertions, its subtraction and its shift checked. -/
def extractBitsChecked (value : U64) (hi lo : Nat) : Exec U64 := do
  Exec.assert (hi ≥ lo)
  let span ← Exec.sub hi lo
  Exec.assert (span < 64)
  let shifted ← Exec.shr value lo
  return shifted &&& extractMask (span + 1)

/-- Within the word nothing is out of range. -/
theorem extractBitsChecked_eq (value : U64) {hi lo : Nat} (h : lo ≤ hi) (hw : hi ≤ 63) :
    extractBitsChecked value hi lo = .returns (extractBits value hi lo) := by
  have hspan : hi - lo < 64 := by omega
  have hlo : lo < 64 := by omega
  simp only [extractBitsChecked, Exec.assert_of h, Exec.sub_of_le h, Exec.assert_of hspan,
    Exec.shr_of_lt hlo, Exec.returns_bind, Exec.pure_eq, extractBits]

/-- The mask of a width is that many low ones. -/
theorem extractMask_eq (width : Nat) (h : width ≤ 64) : extractMask width = Word.mask 64 0 width := by
  rw [extractMask]
  split
  · have : width = 64 := by omega
    rw [this]
    rfl
  · exact Word.one_shift_sub_one (by omega)

/-- `extract_bits` is a slice of the word. -/
theorem extractBits_eq (value : U64) {hi lo : Nat} (h : lo ≤ hi) (hw : hi ≤ 63) :
    extractBits value hi lo = (value.extractLsb' lo (hi - lo + 1)).setWidth 64 := by
  rw [extractBits, extractMask_eq _ (by omega), Word.and_mask_zero]
  congr 1
  apply BitVec.eq_of_getLsbD_eq
  intro i hi
  simp [hi]

/-- As a number it is `n` bits of the word's, from `lo` up. -/
theorem toNat_extractBits (value : U64) {hi lo n : Nat} (h : lo + n = hi + 1) (hn : 0 < n) (hw : hi ≤ 63) :
    (extractBits value hi lo).toNat = value.toNat / 2 ^ lo % 2 ^ n := by
  have hwidth : hi - lo + 1 = n := by omega
  rw [extractBits_eq value (by omega) hw, hwidth, BitVec.toNat_setWidth_of_le (by omega), BitVec.extractLsb'_toNat,
    Nat.shiftRight_eq_div_pow]

/-- Cast to an integer type that holds it, an extracted field is the slice. -/
theorem setWidth_extractBits (n : Nat) (value : U64) {hi lo k : Nat} (h : lo + n = hi + 1) (hn : 0 < n)
    (hw : hi ≤ 63) :
    (extractBits value hi lo).setWidth k = (value.extractLsb' lo n).setWidth k := by
  have hwidth : hi - lo + 1 = n := by omega
  rw [extractBits_eq value (by omega) hw, hwidth, Word.setWidth_through _ (by omega)]

/-- A field of one bit, read as a flag. -/
theorem extractBits_flag (value : U64) {i : Nat} (hi : i ≤ 63) (b : Bool) :
    (extractBits value i i != 0#64) = b ↔ value.extractLsb' i 1 = BitVec.ofBool b := by
  have hflag : ∀ x : BitVec 1, (x.setWidth 64 != 0#64) = b ↔ x = BitVec.ofBool b := by
    cases b <;> decide
  have hwidth : i - i + 1 = 1 := by omega
  rw [extractBits_eq value (Nat.le_refl i) hi, hwidth]
  exact hflag _

/-- A field that fills its type. -/
theorem extractBits_full_iff (value : U64) {hi lo n : Nat} (x : BitVec n) (h : lo + n = hi + 1)
    (hn : 0 < n) (hw : hi ≤ 63) :
    (extractBits value hi lo).setWidth n = x ↔ value.extractLsb' lo n = x := by
  rw [setWidth_extractBits n value h hn hw, BitVec.setWidth_eq]

theorem extractBits_full (value : U64) (hi lo n : Nat) (h : lo + n = hi + 1) (hn : 0 < n) (hw : hi ≤ 63) :
    (extractBits value hi lo).setWidth n = value.extractLsb' lo n :=
  (extractBits_full_iff value _ h hn hw).mpr rfl

/-- A field cast to a type that is too narrow for it. -/
theorem extractBits_low (value : U64) {hi lo n : Nat} (h : lo + n ≤ hi + 1) (hw : hi ≤ 63) :
    (extractBits value hi lo).setWidth n = value.extractLsb' lo n := by
  by_cases hn : n = 0
  · subst hn
    exact Subsingleton.elim _ _
  · rw [extractBits_eq value (by omega) hw, BitVec.setWidth_setWidth_of_le _ (by omega), Word.setWidth_eq_slice,
      Word.slice_slice value lo 0 (by omega), Nat.add_zero]

/-- A field of `m` bits in a wider type. -/
theorem extractBits_narrow_iff (m : Nat) (value : U64) {hi lo n : Nat} (x : BitVec n)
    (h : lo + m = hi + 1) (hm : 0 < m) (hw : hi ≤ 63) (hn : m ≤ n) :
    (extractBits value hi lo).setWidth n = x ↔
      x.toNat < 2 ^ m ∧ value.extractLsb' lo m = x.extractLsb' 0 m := by
  rw [setWidth_extractBits m value h hm hw, Word.setWidth_eq_iff _ x hn]

/-! ### Page addresses -/

theorem place_page (x : U64) : Word.place 64 12 (x.extractLsb' 12 52) = x &&& ~~~0xfff#64 := by
  have hmask : ~~~0xfff#64 = Word.mask 64 12 52 := rfl
  rw [hmask, Word.and_mask]

/-- A page address is decoded as it was when it is aligned. -/
theorem page_iff (w x : U64) :
    w &&& ~~~0xfff#64 = x ↔ x.toNat % 4096 = 0 ∧ w.extractLsb' 12 52 = x.extractLsb' 12 52 := by
  rw [← place_page]
  exact Word.place_eq_iff 12 _ x rfl

/-- The page address that two dwords hold, the lower one of them its frame bits. -/
def splitPage (low high : U32) : List Word.Field := [⟨32, 32, high⟩, ⟨12, 20, low.extractLsb' 0 20⟩]

theorem splitPage_eq (low high : U32) :
    (high.setWidth 64 <<< 32) ||| ((low &&& 0xfffff#32).setWidth 64 <<< 12) = Word.pack 64 (splitPage low high) := by
  have hmask : 0xfffff#32 = Word.mask 32 0 20 := rfl
  have hframe : (low &&& Word.mask 32 0 20).setWidth 64 <<< 12 = Word.place 64 12 (low.extractLsb' 0 20) :=
    Word.place_and_mask low 12 (by decide)
  rw [hmask, hframe, splitPage, Word.pack_cons, Word.pack_cons, Word.pack_nil, BitVec.or_zero]
  rfl

theorem splitPage_cover (low high : U32) : Word.cover 64 (splitPage low high) = ~~~0xfff#64 := by
  simp only [Word.cover, splitPage, List.foldr]
  rfl

theorem splitPage_fitting (low high : U32) : Word.Fitting 64 (Word.extents (splitPage low high)) :=
  of_decide_eq_true rfl

theorem splitPage_holds (low high : U32) (a : U64) : Word.Holds (splitPage low high) a ↔
    low.extractLsb' 0 20 = a.extractLsb' 12 20 ∧ high = a.extractLsb' 32 32 := by
  rw [splitPage, Word.holds_cons, Word.holds_cons, Word.holds_nil, and_true, eq_comm, and_comm]
  exact and_congr_left' eq_comm

/-- A page address split into two dwords is decoded as it was when it is aligned. -/
theorem split_page_iff (low high : U32) (a : U64) :
    (high.setWidth 64 <<< 32) ||| ((low &&& 0xfffff#32).setWidth 64 <<< 12) = a ↔
      a.toNat % 4096 = 0 ∧ low.extractLsb' 0 20 = a.extractLsb' 12 20 ∧ high = a.extractLsb' 32 32 := by
  have hpage : a &&& ~~~0xfff#64 = a ↔ a.toNat % 4096 = 0 := (page_iff a a).trans (and_iff_left rfl)
  rw [splitPage_eq, ← hpage, ← splitPage_holds, Word.holds_iff (splitPage_fitting low high), splitPage_cover]
  constructor
  · rintro rfl
    have hpack : _ &&& Word.cover 64 (splitPage low high) = _ := Word.pack_and_cover (splitPage low high)
    rw [splitPage_cover] at hpack
    exact ⟨hpack, hpack⟩
  · rintro ⟨hsame, hheld⟩
    exact hheld.symm.trans hsame

/-! ### Setters -/

theorem boolAs_wide (b : Bool) : (boolAs 8 b).setWidth 64 = (BitVec.ofBool b).setWidth 64 := by
  cases b <;> rfl

theorem put_flag (q : U64) (lo : Nat) (b : Bool) :
    (q &&& ~~~(1#64 <<< lo)) ||| ((boolAs 8 b).setWidth 64 <<< lo) = Word.put lo (BitVec.ofBool b) q := by
  rw [boolAs_wide]
  exact Word.put_shift q lo (BitVec.ofBool b)

theorem put_flag_low (q : U64) (b : Bool) :
    (q &&& ~~~1#64) ||| (boolAs 8 b).setWidth 64 = Word.put 0 (BitVec.ofBool b) q := by
  rw [boolAs_wide]
  exact Word.put_low q (BitVec.ofBool b)

/-- A page address is put over the page offset that is kept. -/
theorem put_page (q addr : U64) :
    (q &&& 0xfff#64) ||| (addr &&& ~~~0xfff#64) = Word.put 12 (addr.extractLsb' 12 52) q :=
  Word.put_in_place 12 52 q addr

/-! ### Codes -/

/-- The top nibble of a dword, where an opcode or an event code is. -/
theorem top_nibble (d : U32) : (d >>> 28).setWidth 8 = (d.extractLsb' 28 4).setWidth 8 := by
  rw [Word.shift_eq_place 4 d 28 rfl, Word.place_zero, BitVec.setWidth_setWidth_of_le _ (by decide)]

/-- The low half of a dword, where a device id is. -/
theorem low_half (x : U32) : (x &&& 0xffff#32).setWidth 16 = x.extractLsb' 0 16 := by
  have hmask : 0xffff#32 = Word.mask 32 0 16 := rfl
  rw [hmask, Word.and_mask_zero, BitVec.setWidth_setWidth_of_le _ (by decide), BitVec.setWidth_eq,
    Word.setWidth_eq_slice]

end Iommu
