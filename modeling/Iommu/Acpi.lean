import Iommu.Bytes
import Iommu.Lib.Framing
import Mathlib.Data.List.GetD

/-! What the two ACPI tables share.

`DmarTable::new` and `IvrsTable::new` are one check, of a signature, a length and a
checksum, and a `TableKind` is what they differ in. No input makes the check panic
(`accept_eq`), and an accepted table is known to be `Accepted`. The structures of the
one and the blocks of the other are framed alike (`recordFraming`). -/
namespace Iommu.Acpi
open Lib

/-- The byte sum that `new` folds. -/
def checksum (bytes : List U8) : U8 := bytes.foldl (fun a b => a + b) 0#8

theorem checksum_eq_sum (bytes : List U8) : checksum bytes = bytes.sum := List.sum_eq_foldl.symm

/-- The length field of the header. -/
def headerLen (raw : List U8) : Nat :=
  (raw.getD 7 0#8 ++ raw.getD 6 0#8 ++ raw.getD 5 0#8 ++ raw.getD 4 0#8 : U32).toNat

/-! ### Records -/

/-- The length field of a structure or a block, bytes 2 and 3. -/
def recordLen (bytes : List U8) : Nat := (u16FromLe (bytes.getD 2 0#8) (bytes.getD 3 0#8)).toNat

def recordFraming : Framing U8 where
  header := 4
  length := recordLen
  header_pos := by decide
  length_append f rest h := by
    rw [recordLen, recordLen, List.getD_append f rest _ 2 (by omega), List.getD_append f rest _ 3 (by omega)]

/-- The first byte of a frame that is not empty. -/
theorem getD_zero_take (bytes : List U8) {n : Nat} (h : 0 < n) :
    (bytes.take n).getD 0 0#8 = bytes.getD 0 0#8 := by
  cases n with
  | zero => exact absurd h (Nat.lt_irrefl 0)
  | succ n => cases bytes <;> rfl

/-! ### Acceptance -/

structure TableKind (ε τ : Type) where
  /-- The size of the header, where the records start. -/
  offset : Nat
  signature : List U8
  tooShort : Nat → ε
  badSignature : List U8 → ε
  badLength : Nat → Nat → ε
  badChecksum : ε
  view : List U8 → τ
  header_le : 8 ≤ offset

namespace TableKind
variable {ε τ : Type} (k : TableKind ε τ)

/-- The `new` of both tables. -/
def accept (raw : List U8) : Exec (Except ε τ) :=
  if raw.length < k.offset then return .error (k.tooShort raw.length)
  else do
    let sig ← Exec.slice raw 0 4
    if sig ≠ k.signature then return .error (k.badSignature sig)
    else do
      let field ← Exec.slice raw 4 8
      let claimed ← u32FromLe field
      let total := claimed.toNat
      if total < k.offset ∨ total > raw.length then return .error (k.badLength total raw.length)
      else do
        let table ← Exec.slice raw 0 total
        if checksum table ≠ 0#8 then return .error k.badChecksum
        else return .ok (k.view table)

/-- What it checks, in its order. -/
def check (raw : List U8) : Except ε τ :=
  if raw.length < k.offset then .error (k.tooShort raw.length)
  else if raw.take 4 ≠ k.signature then .error (k.badSignature (raw.take 4))
  else if headerLen raw < k.offset ∨ headerLen raw > raw.length then
    .error (k.badLength (headerLen raw) raw.length)
  else if checksum (raw.take (headerLen raw)) ≠ 0#8 then .error k.badChecksum
  else .ok (k.view (raw.take (headerLen raw)))

theorem u32FromLe_header {raw : List U8} (h : 8 ≤ raw.length) :
    ∃ v, u32FromLe ((raw.drop 4).take 4) = .returns v ∧ v.toNat = headerLen raw := by
  match raw, h with
  | _ :: _ :: _ :: _ :: a :: b :: c :: d :: _, _ => exact ⟨d ++ c ++ b ++ a, rfl, rfl⟩

/-- No input makes `new` panic. -/
theorem accept_eq (raw : List U8) : k.accept raw = .returns (k.check raw) := by
  rw [accept, check]
  by_cases hoff : raw.length < k.offset
  · rw [if_pos hoff, if_pos hoff, Exec.pure_eq]
  have hlong : 8 ≤ raw.length := Nat.le_trans k.header_le (Nat.not_lt.mp hoff)
  have hsig : Exec.slice raw 0 4 = .returns (raw.take 4) := Exec.slice_of_le (Nat.zero_le 4) (by omega)
  have hfield : Exec.slice raw 4 8 = .returns ((raw.drop 4).take 4) := Exec.slice_of_le (by decide) hlong
  obtain ⟨v, hv, hlen⟩ := u32FromLe_header hlong
  simp only [if_neg hoff, hsig, hfield, hv, hlen, Exec.returns_bind, Exec.pure_eq]
  by_cases hsame : raw.take 4 ≠ k.signature
  · rw [if_pos hsame, if_pos hsame]
  by_cases hbad : headerLen raw < k.offset ∨ headerLen raw > raw.length
  · rw [if_neg hsame, if_neg hsame, if_pos hbad, if_pos hbad]
  have hslice : Exec.slice raw 0 (headerLen raw) = .returns (raw.take (headerLen raw)) :=
    Exec.slice_of_le (Nat.zero_le _) (Nat.not_lt.mp (not_or.mp hbad).2)
  rw [if_neg hsame, if_neg hsame, if_neg hbad, if_neg hbad, hslice, Exec.returns_bind]
  split <;> rfl

structure Accepted (raw : List U8) (t : τ) : Prop where
  signature : raw.take 4 = k.signature
  offset_le : k.offset ≤ headerLen raw
  total_le : headerLen raw ≤ raw.length
  sum : checksum (raw.take (headerLen raw)) = 0#8
  view : t = k.view (raw.take (headerLen raw))

variable {k}

theorem accepted {raw : List U8} {t : τ} (h : k.accept raw = .returns (.ok t)) : k.Accepted raw t := by
  rw [accept_eq, check] at h
  split at h
  case isTrue => cases h
  split at h
  case isTrue => cases h
  split at h
  case isTrue => cases h
  split at h
  case isTrue => cases h
  case isFalse hsig hbad hsum =>
    obtain ⟨hge, hle⟩ := not_or.mp hbad
    cases h
    exact {
      signature := not_not.mp hsig
      offset_le := Nat.not_lt.mp hge
      total_le := Nat.not_lt.mp hle
      sum := not_not.mp hsum
      view := rfl }

/-- What is known of an accepted table is why it is accepted. -/
theorem Accepted.accept {raw : List U8} {t : τ} (h : k.Accepted raw t) : k.accept raw = .returns (.ok t) := by
  have hlen := h.offset_le
  have hle := h.total_le
  rw [accept_eq, check, if_neg (by omega), if_neg (not_not.mpr h.signature), if_neg (by omega),
    if_neg (not_not.mpr h.sum), h.view]

/-- The bytes of an accepted table reach its records. -/
theorem Accepted.offset_le_length {raw : List U8} {t : τ} (h : k.Accepted raw t) :
    k.offset ≤ (raw.take (headerLen raw)).length := by
  rw [List.length_take, Nat.min_eq_left h.total_le]
  exact h.offset_le

end TableKind
end Iommu.Acpi
