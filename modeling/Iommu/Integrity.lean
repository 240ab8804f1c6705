import Iommu.Amd.Ivrs
import Iommu.Intel.Dmar
import Mathlib.Algebra.BigOperators.Group.List.Basic

/-! What acceptance protects.

A table is accepted by its own bytes alone: what stands after them does not matter, and
no other byte may stand in the place of one of them. A wrong byte of the signature is
found as such, one after the length field by the sum, which cannot stay zero when one
of its terms changes (`checksum_set`). Only the length field is not so protected: it
decides which bytes are summed. -/
namespace Iommu.Acpi
open Lib

/-! ### One byte replaced -/

theorem checksum_set {bytes : List U8} {p : Nat} (hp : p < bytes.length) {v : U8} (hv : v ≠ bytes.getD p 0#8) :
    checksum (bytes.set p v) ≠ checksum bytes := by
  intro hsame
  rw [checksum_eq_sum, checksum_eq_sum, List.sum_set', dif_pos hp] at hsame
  have hzero : -bytes[p] + v = 0 := add_eq_left.mp hsame
  have hbyte : bytes.getD p 0#8 = bytes[p] := by
    rw [List.getD_eq_getElem?_getD, List.getElem?_eq_getElem hp, Option.getD_some]
  exact hv ((neg_add_eq_zero.mp hzero).symm.trans hbyte.symm)

theorem getD_set_ne (raw : List U8) {p i : Nat} (v : U8) (h : p ≠ i) : (raw.set p v).getD i 0#8 = raw.getD i 0#8 := by
  rw [List.getD_eq_getElem?_getD, List.getElem?_set_ne h, ← List.getD_eq_getElem?_getD]

/-- The length of a header is read from its bytes 4 to 7 alone. -/
theorem headerLen_congr {raw raw' : List U8} (h : ∀ i, 4 ≤ i → i < 8 → raw'.getD i 0#8 = raw.getD i 0#8) :
    headerLen raw' = headerLen raw := by
  rw [headerLen, headerLen, h 4 (by decide) (by decide), h 5 (by decide) (by decide), h 6 (by decide) (by decide),
    h 7 (by decide) (by decide)]

/-! ### Acceptance -/

namespace TableKind
variable {ε τ : Type} {k : TableKind ε τ} {raw : List U8} {t : τ}

/-- Bytes after the table leave it accepted, with the view that it had and so the
records that are read off it. -/
theorem Accepted.append (h : k.Accepted raw t) (suffix : List U8) : k.Accepted (raw ++ suffix) t := by
  have hheader := k.header_le
  have hlen := h.offset_le
  have hle := h.total_le
  have htotal : headerLen (raw ++ suffix) = headerLen raw :=
    headerLen_congr fun i _ hi => List.getD_append raw suffix 0#8 i (by omega)
  have htake : ∀ n, n ≤ raw.length → (raw ++ suffix).take n = raw.take n := fun n hn => List.take_append_of_le_length hn
  exact {
    signature := by rw [htake 4 (by omega), h.signature]
    offset_le := by rw [htotal]; exact hlen
    total_le := by rw [htotal, List.length_append]; omega
    sum := by rw [htotal, htake _ hle, h.sum]
    view := by rw [htotal, htake _ hle, h.view] }

/-- A wrong byte of the signature. -/
theorem Accepted.bad_signature (h : k.Accepted raw t) {p : Nat} (hp : p < 4) {v : U8} (hv : v ≠ raw.getD p 0#8) :
    k.accept (raw.set p v) = .returns (.error (k.badSignature ((raw.set p v).take 4))) := by
  have hheader := k.header_le
  have hlen := h.offset_le
  have hle := h.total_le
  have hwrong : (raw.set p v).take 4 ≠ k.signature := by
    intro hsame
    have hbyte := congrArg (fun l : List U8 => l[p]?) (hsame.trans h.signature.symm)
    simp only [List.getElem?_take, if_pos hp, List.getElem?_set_self (show p < raw.length by omega)] at hbyte
    rw [List.getD_eq_getElem?_getD, ← hbyte, Option.getD_some] at hv
    exact hv rfl
  rw [accept_eq, check, if_neg (by rw [List.length_set]; omega), if_pos hwrong]

/-- A wrong byte after the length field. -/
theorem Accepted.bad_checksum (h : k.Accepted raw t) {p : Nat} (hp : 8 ≤ p) (hin : p < headerLen raw) {v : U8}
    (hv : v ≠ raw.getD p 0#8) : k.accept (raw.set p v) = .returns (.error k.badChecksum) := by
  have hlen := h.offset_le
  have hle := h.total_le
  have htotal : headerLen (raw.set p v) = headerLen raw :=
    headerLen_congr fun i _ hi => getD_set_ne raw v (by omega)
  have hsig : (raw.set p v).take 4 = k.signature := by
    rw [List.take_set_of_le (by omega), h.signature]
  have hsum : checksum ((raw.set p v).take (headerLen raw)) ≠ 0#8 := by
    have htaken : (raw.take (headerLen raw)).getD p 0#8 = raw.getD p 0#8 := by
      rw [List.getD_eq_getElem?_getD, List.getElem?_take_of_lt hin, ← List.getD_eq_getElem?_getD]
    rw [List.take_set, ← h.sum]
    refine checksum_set ?_ (htaken.symm ▸ hv)
    rw [List.length_take]
    omega
  rw [accept_eq, check, htotal, List.length_set, if_neg (by omega), if_neg (not_not.mpr hsig), if_neg (by omega),
    if_pos hsum]

/-- What the acceptance of a table by `new` protects. -/
structure Guards (k : TableKind ε τ) (new : List U8 → Exec (Except ε τ)) : Prop where
  /-- No input makes it panic. -/
  total : ∀ raw, (new raw).Returns
  suffix : ∀ raw t, new raw = .returns (.ok t) → ∀ suffix, new (raw ++ suffix) = .returns (.ok t)
  signature : ∀ raw t, new raw = .returns (.ok t) → ∀ p < 4, ∀ v, v ≠ raw.getD p 0#8 →
    new (raw.set p v) = .returns (.error (k.badSignature ((raw.set p v).take 4)))
  checksum : ∀ raw t, new raw = .returns (.ok t) → ∀ p, 8 ≤ p → p < headerLen raw → ∀ v, v ≠ raw.getD p 0#8 →
    new (raw.set p v) = .returns (.error k.badChecksum)

theorem guards (k : TableKind ε τ) : k.Guards k.accept where
  total := fun raw => ⟨k.check raw, k.accept_eq raw⟩
  suffix := fun _ _ h suffix => ((accepted h).append suffix).accept
  signature := fun _ _ h _ hp _ hv => (accepted h).bad_signature hp hv
  checksum := fun _ _ h _ hp hin _ hv => (accepted h).bad_checksum hp hin hv

end TableKind

/-- **Acceptance of both tables** finds any one byte replaced and passes over what
follows the table. -/
theorem tables_guarded :
    Intel.Dmar.kind.Guards Intel.Dmar.DmarTable.new ∧ Amd.Ivrs.kind.Guards Amd.Ivrs.IvrsTable.new :=
  ⟨Intel.Dmar.kind.guards, Amd.Ivrs.kind.guards⟩

end Iommu.Acpi
