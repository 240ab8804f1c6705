import Iommu.Acpi
import Mathlib.Algebra.BigOperators.Group.List.Basic
import Mathlib.Tactic.Abel

/-! Tables that are written from data.

A writer seals a table by its first ten bytes: the signature, the length of it all, the
revision, and the byte that makes the sum zero. A sealed table is accepted whole by the
kind whose signature it has (`sealed_accepted`), whatever it holds, and a record that is
given its length is a frame of it (`whole_record`). -/
namespace Iommu.Acpi
open Lib

/-- The first eight bytes of a table, and its revision. -/
def front (signature : List U8) (revision : U8) (rest : List U8) : List U8 :=
  signature ++ u32ToLe (BitVec.ofNat 32 (10 + rest.length)) ++ [revision]

/-- The byte that makes the sum of a table zero. -/
def balance (signature : List U8) (revision : U8) (rest : List U8) : U8 :=
  -((front signature revision rest).sum + rest.sum)

/-- A table with the given bytes from its tenth on. -/
def sealed (signature : List U8) (revision : U8) (rest : List U8) : List U8 :=
  front signature revision rest ++ balance signature revision rest :: rest

variable {signature : List U8} (revision : U8) (rest : List U8)

theorem checksum_sealed : checksum (sealed signature revision rest) = 0#8 := by
  rw [checksum_eq_sum, sealed, List.sum_append, List.sum_cons, balance]
  abel

theorem length_sealed (h : signature.length = 4) : (sealed signature revision rest).length = 10 + rest.length := by
  simp only [sealed, front, List.length_append, List.length_cons, List.length_nil, length_u32ToLe, h]
  omega

theorem headerLen_sealed (h : signature.length = 4) (hlt : 10 + rest.length < 2 ^ 32) :
    headerLen (sealed signature revision rest) = 10 + rest.length := by
  match signature, h with
  | [a, b, c, d], _ =>
    have hbytes := congrArg BitVec.toNat (bytes_append (BitVec.ofNat 32 (10 + rest.length)))
    rw [BitVec.toNat_ofNat, Nat.mod_eq_of_lt hlt] at hbytes
    exact hbytes

theorem take_sealed (h : signature.length = 4) : (sealed signature revision rest).take 4 = signature := by
  rw [sealed, front, List.append_assoc, List.append_assoc, List.take_left' h]

/-- **A sealed table is accepted**, as the whole of its bytes. -/
theorem sealed_accepted {ε τ : Type} (k : TableKind ε τ) (hsig : k.signature.length = 4) {header : List U8}
    (hheader : 10 + header.length = k.offset) (body : List U8) (hlt : k.offset + body.length < 2 ^ 32) :
    k.Accepted (sealed k.signature revision (header ++ body))
      (k.view (sealed k.signature revision (header ++ body))) := by
  have hlength : 10 + (header ++ body).length = k.offset + body.length := by
    rw [List.length_append, ← Nat.add_assoc, hheader]
  have hlen := length_sealed revision (header ++ body) hsig
  have htotal := headerLen_sealed revision (header ++ body) hsig (by omega)
  have hwhole := List.take_of_length_le (Nat.le_of_eq hlen)
  exact {
    signature := take_sealed revision (header ++ body) hsig
    offset_le := by omega
    total_le := Nat.le_of_eq (htotal.trans hlen.symm)
    sum := by rw [htotal, hwhole, checksum_sealed]
    view := by rw [htotal, hwhole] }

/-- What follows its header is what was written there. -/
theorem drop_sealed {ε τ : Type} (k : TableKind ε τ) (hsig : k.signature.length = 4) {header : List U8}
    (hheader : 10 + header.length = k.offset) (body : List U8) :
    (sealed k.signature revision (header ++ body)).drop k.offset = body := by
  have hsplit : sealed k.signature revision (header ++ body) = (front k.signature revision (header ++ body) ++
      balance k.signature revision (header ++ body) :: header) ++ body := by
    rw [sealed, List.append_assoc, List.cons_append]
  rw [hsplit]
  refine List.drop_left' ?_
  simp only [front, List.length_append, List.length_cons, List.length_nil, length_u32ToLe, hsig]
  omega

/-! ### Records -/

/-- A record that is written with its length is whole. -/
theorem whole_record (ty flags : U8) {n : Nat} (hn : n < 2 ^ 16) {rest : List U8} (hlen : 4 + rest.length = n) :
    recordFraming.Whole ([ty, flags] ++ u16ToLe (BitVec.ofNat 16 n) ++ rest) := by
  have hlength : ([ty, flags] ++ u16ToLe (BitVec.ofNat 16 n) ++ rest).length = n := by
    rw [List.length_append, ← hlen]
    rfl
  constructor
  · rw [hlength, ← hlen]
    exact Nat.le_add_right 4 _
  · rw [hlength]
    show (u16FromLe ((BitVec.ofNat 16 n).extractLsb' 0 8) ((BitVec.ofNat 16 n).extractLsb' 8 8)).toNat = n
    rw [u16FromLe_toLe, BitVec.toNat_ofNat, Nat.mod_eq_of_lt hn]

end Iommu.Acpi
