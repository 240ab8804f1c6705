import Iommu.Bits
import Iommu.Lib.Positional

/-! `extract_bits` on the words it is computed with (`bits.rs` of both crates).

The decoders are stated over bit positions that are numbers (`extractBits`). In the
source a position is a `u8` and the mask is built from a `u32`, so here every operation
is the checked one of its type, for both crates alike. Nothing of it is ever out of range
that an assertion does not stop first (`extractBitsWord_eq_checked`), and what it returns
is the field of the integer (`extractBitsWord_returns`). -/
namespace Iommu
open Lib

/-- The mask, from the width as it is cast. -/
def maskWord (width : U32) : Exec U64 :=
  if width ≥ 64#32 then return BitVec.allOnes 64
  else do
    let bit ← Exec.shl 1#64 width.toNat
    Exec.subWord bit 1#64

/-- `extract_bits`. -/
def extractBitsWord (value : U64) (hi lo : U8) : Exec U64 := do
  Exec.assert (hi ≥ lo)
  let span ← Exec.subWord hi lo
  Exec.assert (span < 64#8)
  -- The span is not kept from the assertion, which other builds leave out.
  let span ← Exec.subWord hi lo
  let count ← Exec.add span 1#8
  let mask ← maskWord (count.setWidth 32)
  let shifted ← Exec.shr value lo.toNat
  return shifted &&& mask

namespace Intel.Bits

def extractBits : U64 → U8 → U8 → Exec U64 := extractBitsWord

end Intel.Bits

namespace Amd.Bits

def extractBits : U64 → U8 → U8 → Exec U64 := extractBitsWord

end Amd.Bits

/-! ### Nothing is out of range -/

/-- The mask is the same, and neither its shift nor its subtraction overflows. -/
theorem maskWord_eq (width : U32) : maskWord width = .returns (extractMask width.toNat) := by
  rw [maskWord, extractMask]
  by_cases hfull : width ≥ 64#32
  · have hfull' : width.toNat ≥ 64 := hfull
    rw [if_pos hfull, if_pos hfull', Exec.pure_eq]
  · have hfull' : ¬width.toNat ≥ 64 := hfull
    have hlt : width.toNat < 64 := by omega
    rw [if_neg hfull, if_neg hfull', Exec.shl_of_lt hlt, Exec.returns_bind,
      Exec.subWord_of_le (Word.one_le_one_shift hlt)]

/-- **On words it is the function on numbers**, returning when it does and stopped by
the same assertion. -/
theorem extractBitsWord_eq_checked (value : U64) (hi lo : U8) :
    extractBitsWord value hi lo = extractBitsChecked value hi.toNat lo.toNat := by
  rw [extractBitsWord, extractBitsChecked]
  by_cases hle : hi ≥ lo
  · have hle' : hi.toNat ≥ lo.toNat := hle
    have hspan : (hi - lo).toNat = hi.toNat - lo.toNat := BitVec.toNat_sub_of_le hle
    rw [Exec.assert_of hle, Exec.assert_of hle', Exec.subWord_of_le hle, Exec.sub_of_le hle']
    simp only [Exec.returns_bind]
    by_cases hwidth : hi - lo < 64#8
    · have hwidth' : hi.toNat - lo.toNat < 64 := hspan ▸ hwidth
      have hone : (hi - lo).toNat + (1#8).toNat < 2 ^ 8 := by
        rw [hspan, BitVec.toNat_ofNat]
        omega
      have hcount : ((hi - lo + 1#8).setWidth 32).toNat = hi.toNat - lo.toNat + 1 := by
        rw [BitVec.toNat_setWidth_of_le (by decide), BitVec.toNat_add_of_lt hone, hspan]
        rfl
      rw [Exec.assert_of hwidth, Exec.assert_of hwidth', Exec.add_of_lt hone]
      simp only [Exec.returns_bind, maskWord_eq, hcount]
    · have hwidth' : ¬hi.toNat - lo.toNat < 64 := hspan ▸ hwidth
      rw [Exec.assert_of_not hwidth, Exec.assert_of_not hwidth']
      rfl
  · have hle' : ¬hi.toNat ≥ lo.toNat := hle
    rw [Exec.assert_of_not hle, Exec.assert_of_not hle']
    rfl

/-! ### The field of the integer -/

/-- Within the word it returns the field that the decoders read. -/
theorem extractBitsWord_eq (value : U64) {hi lo : U8} (h : lo ≤ hi) (hw : hi ≤ 63#8) :
    extractBitsWord value hi lo = .returns (extractBits value hi.toNat lo.toNat) := by
  rw [extractBitsWord_eq_checked]
  exact extractBitsChecked_eq value h hw

/-- As a number it is the bits of the word from `lo` to `hi`. -/
theorem extractBitsWord_returns (value : U64) {hi lo : U8} (h : lo ≤ hi) (hw : hi ≤ 63#8) :
    ∃ x, extractBitsWord value hi lo = .returns x ∧
      x.toNat = Positional.part 2 value.toNat lo.toNat (hi.toNat - lo.toNat + 1) := by
  have hle : lo.toNat ≤ hi.toNat := h
  exact ⟨extractBits value hi.toNat lo.toNat, extractBitsWord_eq value h hw,
    toNat_extractBits value (by omega) (Nat.succ_pos _) hw⟩

/-- What an extraction is at a field: the bits of the integer, and at every place
within it the two fields that meet there. -/
structure ExtractsField (extract : U64 → U8 → U8 → Exec U64) (value : U64) (hi lo : U8) : Prop where
  bits : ∃ x, extract value hi lo = .returns x ∧
    x.toNat = value.toNat / 2 ^ lo.toNat % 2 ^ (hi.toNat - lo.toNat + 1)
  split : ∀ m, lo ≤ m → m < hi → ∃ x upper lower, extract value hi lo = .returns x ∧
    extract value hi (m + 1#8) = .returns upper ∧ extract value m lo = .returns lower ∧
    x.toNat = upper.toNat * 2 ^ (m.toNat + 1 - lo.toNat) + lower.toNat

theorem extractBitsWord_field (value : U64) {hi lo : U8} (h : lo ≤ hi) (hw : hi ≤ 63#8) :
    ExtractsField extractBitsWord value hi lo where
  bits := extractBitsWord_returns value h hw
  split m hlo hhi := by
    have hword : hi.toNat ≤ 63 := hw
    have hle : lo.toNat ≤ m.toNat := hlo
    have hlt : m.toNat < hi.toNat := hhi
    have hnext : (m + 1#8).toNat = m.toNat + 1 := BitVec.toNat_add_of_lt (by rw [BitVec.toNat_ofNat]; omega)
    have habove : m + 1#8 ≤ hi := by
      rw [BitVec.le_def, hnext]
      exact hlt
    have hbelow : m ≤ 63#8 := by
      rw [BitVec.le_def]
      exact Nat.le_trans (Nat.le_of_lt hlt) hw
    obtain ⟨x, hx, hvalue⟩ := extractBitsWord_returns value h hw
    obtain ⟨upper, hupper, hhigh⟩ := extractBitsWord_returns value habove hw
    obtain ⟨lower, hlower, hlow⟩ := extractBitsWord_returns value hlo hbelow
    refine ⟨x, upper, lower, hx, hupper, hlower, ?_⟩
    have hwidth : hi.toNat - lo.toNat + 1 = (m.toNat - lo.toNat + 1) + (hi.toNat - (m.toNat + 1) + 1) := by omega
    have hplace : lo.toNat + (m.toNat - lo.toNat + 1) = m.toNat + 1 := by omega
    have hpower : m.toNat + 1 - lo.toNat = m.toNat - lo.toNat + 1 := by omega
    rw [hvalue, hwidth, Positional.part_append, hplace, hhigh, hnext, hlow, hpower]

/-- **Extraction is exact** in both crates, at every field of the word. -/
theorem fields_extracted (value : U64) (hi lo : U8) (h : lo ≤ hi) (hw : hi ≤ 63#8) :
    ExtractsField Intel.Bits.extractBits value hi lo ∧ ExtractsField Amd.Bits.extractBits value hi lo :=
  ⟨extractBitsWord_field value h hw, extractBitsWord_field value h hw⟩

/-- The whole word is a field too. -/
theorem whole_word_extracted :
    Intel.Bits.extractBits 0xdeadbeefcafebabe#64 63#8 0#8 = .returns 0xdeadbeefcafebabe#64 ∧
      ExtractsField Intel.Bits.extractBits 0xdeadbeefcafebabe#64 63#8 0#8 ∧
      ExtractsField Amd.Bits.extractBits 0xdeadbeefcafebabe#64 63#8 0#8 :=
  ⟨rfl, fields_extracted 0xdeadbeefcafebabe#64 63#8 0#8 (by decide) (by decide)⟩

end Iommu
