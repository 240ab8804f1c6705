import Iommu.Bits
import Mathlib.Data.Nat.Digits.Defs

/-! Words in memory, the lowest byte first.

The tables of both crates are read and written a qword at a time, and the ACPI tables
that the crates only read have fields of two, four and eight bytes. An entry is
written by copying its qwords over a buffer of zeros, from the start: what is done
so far stands in front of the zeros still to be overwritten (`filling`). -/
namespace Iommu
open Lib

/-- `u16::from_le_bytes`. -/
def u16FromLe (lo hi : U8) : U16 := hi ++ lo

/-- `u32::from_le_bytes` of a slice that must have four bytes. -/
def u32FromLe : List U8 → Exec U32
  | [a, b, c, d] => .returns (d ++ c ++ b ++ a)
  | _ => .panics .unwrap

/-- `u64::from_le_bytes` of a slice that must have eight bytes. -/
def u64FromLe : List U8 → Exec U64
  | [a, b, c, d, e, f, g, h] => .returns (h ++ g ++ f ++ e ++ d ++ c ++ b ++ a)
  | _ => .panics .unwrap

/-- `u64::to_le_bytes`. -/
def u64ToLe (q : U64) : List U8 :=
  [q.extractLsb' 0 8, q.extractLsb' 8 8, q.extractLsb' 16 8, q.extractLsb' 24 8,
    q.extractLsb' 32 8, q.extractLsb' 40 8, q.extractLsb' 48 8, q.extractLsb' 56 8]

/-- `u32::to_le_bytes`. -/
def u32ToLe (v : U32) : List U8 :=
  [v.extractLsb' 0 8, v.extractLsb' 8 8, v.extractLsb' 16 8, v.extractLsb' 24 8]

/-- `u16::to_le_bytes`. -/
def u16ToLe (v : U16) : List U8 := [v.extractLsb' 0 8, v.extractLsb' 8 8]

/-- The qword at a place in memory, `u64::from_le_bytes(bytes[off..off + 8].try_into())`. -/
def readQword (bytes : List U8) (off : Nat) : Exec U64 := do
  let field ← Exec.slice bytes off (off + 8)
  let a ← Exec.tryInto 8 field
  u64FromLe a

theorem u32FromLe_returns {bytes : List U8} (h : bytes.length = 4) : (u32FromLe bytes).Returns := by
  match bytes, h with
  | [a, b, c, d], _ => exact ⟨d ++ c ++ b ++ a, rfl⟩

theorem u64FromLe_returns {bytes : List U8} (h : bytes.length = 8) : (u64FromLe bytes).Returns := by
  match bytes, h with
  | [a, b, c, d, e, f, g, h], _ => exact ⟨h ++ g ++ f ++ e ++ d ++ c ++ b ++ a, rfl⟩

@[simp] theorem u16FromLe_toLe (v : U16) : u16FromLe (v.extractLsb' 0 8) (v.extractLsb' 8 8) = v := by
  have h8 : (8 : Nat) = 0 + 8 := rfl
  rw [u16FromLe, BitVec.extractLsb'_append_extractLsb'_eq_extractLsb' h8]
  exact BitVec.extractLsb'_eq_self

/-- A dword is its four bytes. -/
theorem bytes_append (v : U32) :
    v.extractLsb' 24 8 ++ v.extractLsb' 16 8 ++ v.extractLsb' 8 8 ++ v.extractLsb' 0 8 = v := by
  iterate 3 rw [BitVec.extractLsb'_append_extractLsb'_eq_extractLsb' (by rfl)]
  exact BitVec.extractLsb'_eq_self

@[simp] theorem u32FromLe_toLe (v : U32) : u32FromLe (u32ToLe v) = .returns v :=
  congrArg Exec.returns (bytes_append v)

theorem u64FromLe_toLe (q : U64) : u64FromLe (u64ToLe q) = .returns q := by
  have hwhole : q.extractLsb' 56 8 ++ q.extractLsb' 48 8 ++ q.extractLsb' 40 8 ++ q.extractLsb' 32 8 ++
      q.extractLsb' 24 8 ++ q.extractLsb' 16 8 ++ q.extractLsb' 8 8 ++ q.extractLsb' 0 8 = q := by
    iterate 7 rw [BitVec.extractLsb'_append_extractLsb'_eq_extractLsb' (by rfl)]
    exact BitVec.extractLsb'_eq_self
  exact congrArg Exec.returns hwhole

theorem length_u64ToLe (q : U64) : (u64ToLe q).length = 8 := rfl

@[simp] theorem length_u32ToLe (v : U32) : (u32ToLe v).length = 4 := rfl

@[simp] theorem length_u16ToLe (v : U16) : (u16ToLe v).length = 2 := rfl

/-- A qword is its two dwords, the low one first. -/
theorem u64ToLe_dwords (low high : U32) : u64ToLe (high ++ low) = u32ToLe low ++ u32ToLe high := by
  simp (disch := decide) only [u64ToLe, u32ToLe, BitVec.extractLsb'_append_eq_of_add_le,
    BitVec.extractLsb'_append_eq_of_le]
  rfl

theorem length_flatMap_toLe (qs : List U64) : (qs.flatMap u64ToLe).length = 8 * qs.length := by
  induction qs with
  | nil => rfl
  | cons q qs ih =>
    rw [List.flatMap_cons, List.length_append, ih, length_u64ToLe, List.length_cons]
    omega

/-! ### Writing -/

/-- A buffer with the qwords written so far and room for `n` more. -/
def filling (done : List U64) (n : Nat) : List U8 := done.flatMap u64ToLe ++ List.replicate (8 * n) 0#8

/-- One more qword, at the place it has in the order. -/
theorem copyInto_filling (done : List U64) (n : Nat) (q : U64) {lo hi : Nat} (hlo : 8 * done.length = lo)
    (hhi : lo + 8 = hi) :
    Exec.copyInto (filling done (n + 1)) lo hi (u64ToLe q) = .returns (filling (done ++ [q]) n) := by
  have hroom : List.replicate (8 * (n + 1)) 0#8 = List.replicate 8 0#8 ++ List.replicate (8 * n) 0#8 := by
    rw [List.replicate_append_replicate]
    congr 1
    omega
  have hcopy := Exec.copyInto_append (done.flatMap u64ToLe) (List.replicate 8 0#8) (List.replicate (8 * n) 0#8)
    ((length_flatMap_toLe done).trans hlo) hhi (length_u64ToLe q)
  rw [filling, hroom, hcopy, filling, List.flatMap_append, List.flatMap_singleton]

theorem filling_full (qs : List U64) : filling qs 0 = qs.flatMap u64ToLe := List.append_nil _

/-! ### Reading back -/

/-- The qword at an offset, by its place in the order. -/
theorem readQword_toLe {qs : List U64} (k : Nat) {off : Nat} {q : U64} (hoff : 8 * k = off) (hq : qs[k]? = some q) :
    readQword (qs.flatMap u64ToLe) off = .returns q := by
  obtain ⟨hk, hget⟩ := List.getElem?_eq_some_iff.mp hq
  have hbefore : ((qs.take k).flatMap u64ToLe).length = off := by
    rw [length_flatMap_toLe, List.length_take, Nat.min_eq_left (Nat.le_of_lt hk), hoff]
  have hsplit : qs.flatMap u64ToLe =
      (qs.take k).flatMap u64ToLe ++ (u64ToLe q ++ (qs.drop (k + 1)).flatMap u64ToLe) := calc
    qs.flatMap u64ToLe = (qs.take k ++ qs.drop k).flatMap u64ToLe := by rw [List.take_append_drop]
    _ = (qs.take k ++ q :: qs.drop (k + 1)).flatMap u64ToLe := by rw [List.drop_eq_getElem_cons hk, hget]
    _ = _ := by rw [List.flatMap_append, List.flatMap_cons]
  have hslice := Exec.slice_append _ (u64ToLe q) ((qs.drop (k + 1)).flatMap u64ToLe) hbefore
    (congrArg (off + ·) (length_u64ToLe q))
  rw [readQword, hsplit, hslice, Exec.returns_bind, Exec.tryInto_of_eq (length_u64ToLe q), Exec.returns_bind,
    u64FromLe_toLe]

theorem u64ToLe_append (a b c d e f g h : U8) :
    u64ToLe (h ++ g ++ f ++ e ++ d ++ c ++ b ++ a) = [a, b, c, d, e, f, g, h] := by
  simp only [u64ToLe, List.cons.injEq, and_true]
  refine ⟨?_, ?_, ?_, ?_, ?_, ?_, ?_, ?_⟩
  all_goals
    apply BitVec.eq_of_getLsbD_eq
    intro i hi
    simp only [BitVec.getLsbD_extractLsb', BitVec.getLsbD_append, hi, decide_true, Bool.true_and]
    grind

/-- Any bytes are qwords, eight to a qword. -/
theorem exists_qwords {bytes : List U8} {n : Nat} (h : bytes.length = 8 * n) :
    ∃ qs : List U64, qs.length = n ∧ qs.flatMap u64ToLe = bytes := by
  induction n generalizing bytes with
  | zero => exact ⟨[], rfl, (List.eq_nil_of_length_eq_zero h).symm⟩
  | succ n ih =>
    match bytes, h with
    | a :: b :: c :: d :: e :: f :: g :: i :: rest, h =>
      have hlength : rest.length = 8 * n := by
        simp only [List.length_cons] at h
        omega
      obtain ⟨qs, hlen, hrest⟩ := ih hlength
      refine ⟨(i ++ g ++ f ++ e ++ d ++ c ++ b ++ a) :: qs, by rw [List.length_cons, hlen], ?_⟩
      rw [List.flatMap_cons, u64ToLe_append, hrest]
      rfl

/-- An entry is written as its qwords in order, and read back from them. -/
structure Wire {S : Type} (intoBytes : S → Exec (List U8)) (ofBytes : List U8 → Exec S)
    (qwords : S → List U64) : Prop where
  bytes : ∀ s, intoBytes s = .returns ((qwords s).flatMap u64ToLe)
  back : ∀ s, intoBytes s >>= ofBytes = .returns s

/-! ### One integer -/

/-- The integer that the bytes are, the lowest byte first. -/
def leNat (bytes : List U8) : Nat := Nat.ofDigits 256 (bytes.map BitVec.toNat)

/-- Bits `hi..=lo` of an integer. -/
def bitRange (x hi lo : Nat) : Nat := (x >>> lo) % 2 ^ (hi + 1 - lo)

theorem leNat_toLe (q : U64) : leNat (u64ToLe q) = q.toNat := by
  have hq : q.toNat < 2 ^ 64 := q.isLt
  simp only [leNat, u64ToLe, List.map_cons, List.map_nil, Nat.ofDigits_cons, Nat.ofDigits_nil,
    BitVec.extractLsb'_toNat, Nat.shiftRight_eq_div_pow]
  omega

theorem leNat_cons (q : U64) (qs : List U64) :
    leNat ((q :: qs).flatMap u64ToLe) = 2 ^ 64 * leNat (qs.flatMap u64ToLe) + q.toNat := by
  have hbytes : (256 : Nat) ^ 8 = 2 ^ 64 := rfl
  have hfirst : Nat.ofDigits 256 ((u64ToLe q).map BitVec.toNat) = q.toNat := leNat_toLe q
  rw [leNat, List.flatMap_cons, List.map_append, Nat.ofDigits_append, List.length_map, length_u64ToLe, hbytes, hfirst,
    Nat.add_comm]
  rfl

/-- The bits of the integer are those of the qwords, in order. -/
theorem testBit_leNat (qs : List U64) (k i : Nat) (hi : i < 64) :
    (leNat (qs.flatMap u64ToLe)).testBit (64 * k + i) = (qs.getD k 0#64).getLsbD i := by
  induction qs generalizing k with
  | nil =>
    rw [List.flatMap_nil, List.getD_nil, BitVec.getLsbD_zero]
    exact Nat.zero_testBit _
  | cons q qs ih =>
    rw [leNat_cons, Nat.testBit_two_pow_mul_add _ q.isLt]
    cases k with
    | zero =>
      rw [if_pos (by omega), Nat.mul_zero, Nat.zero_add, List.getD_cons_zero]
      rfl
    | succ k =>
      have hrest : 64 * (k + 1) + i - 64 = 64 * k + i := by omega
      rw [if_neg (by omega), hrest, ih, List.getD_cons_succ]

/-- A range of its bits within one qword is a slice of that qword. -/
theorem bitRange_leNat (qs : List U64) (k lo n : Nat) {hi off : Nat} (hoff : 64 * k + lo = off)
    (hhi : off + n = hi + 1) (hn : lo + n ≤ 64) :
    bitRange (leNat (qs.flatMap u64ToLe)) hi off = ((qs.getD k 0#64).extractLsb' lo n).toNat := by
  have hwidth : hi + 1 - off = n := by omega
  apply Nat.eq_of_testBit_eq
  intro i
  rw [bitRange, hwidth, Nat.testBit_mod_two_pow, Nat.testBit_shiftRight, BitVec.testBit_toNat,
    BitVec.getLsbD_extractLsb']
  by_cases hi : i < n
  · rw [← hoff, Nat.add_assoc, testBit_leNat qs k (lo + i) (by omega)]
  · simp only [hi, decide_false, Bool.false_and]

end Iommu
