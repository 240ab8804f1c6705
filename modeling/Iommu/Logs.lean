import Iommu.Lib.Cells
import Iommu.Intel.Capabilities
import Iommu.Intel.Fault
import Iommu.Amd.Events
import Iommu.Amd.Ppr
import Iommu.Amd.Regs

/-! Logs of the hardware.

The fault recording registers of one crate, the event and page request logs of the other:
entries of sixteen bytes, each at an address that the crate computes from its number. The
entries of a log do not meet, so whatever is logged, in whatever order, the entry of each
number is decoded from what was logged there last (`logs_hold`). -/
namespace Iommu.Logs
open Lib

/-- A log: where its entries are, how one is a few words, and what is read of them. -/
structure Log (w : Nat) (E R : Type) where
  entryAddr : U16 → Exec U64
  bytes : Nat
  size : Nat
  encode : E → Fin size → BitVec w
  decode : (Fin size → BitVec w) → R
  start : U64
  entryAddr_eq : ∀ n, entryAddr n = .returns (start + BitVec.ofNat 64 (bytes * n.toNat))
  bytes_le : bytes ≤ 32
  width_pos : 0 < w / 8
  size_eq : size * (w / 8) = bytes

namespace Log
variable {w : Nat} {E R : Type} (L : Log w E R)

/-- The address of a word of an entry. -/
def wordAddr (a : U64) (i : Fin L.size) : U64 := a + BitVec.ofNat 64 (w / 8 * i)

/-- An entry put in the log. -/
def put (mem : U64 → BitVec w) (n : U16) (e : E) : Exec (U64 → BitVec w) := do
  let a ← L.entryAddr n
  return writeWords (L.wordAddr a) (L.encode e) mem

/-- An entry read from the log. -/
def get (mem : U64 → BitVec w) (n : U16) : Exec R := do
  let a ← L.entryAddr n
  return L.decode fun i => mem (L.wordAddr a i)

def putAll (mem : U64 → BitVec w) : List (U16 × E) → Exec (U64 → BitVec w)
  | [] => return mem
  | (n, e) :: entries => do
    let mem ← L.put mem n e
    putAll mem entries

def entry (n : U16) : U64 := L.start + BitVec.ofNat 64 (L.bytes * n.toNat)

/-- The entry that was put at a number last. -/
def LastPut (n : U16) (e : E) (entries : List (U16 × E)) : Prop :=
  ∃ pre post, entries = pre ++ (n, e) :: post ∧ ∀ p ∈ post, p.1 ≠ n

/-- What a log holds after it was written. Memory is a word at every address, so this is
about the words of aligned addresses: one that is read askew has bytes of two of them,
and `outside` says nothing of those. -/
structure Holds (mem after : U64 → BitVec w) (entries : List (U16 × E)) : Prop where
  last : ∀ n e, LastPut n e entries → L.get after n = .returns (L.decode (L.encode e))
  unset : ∀ n, (∀ p ∈ entries, p.1 ≠ n) → L.get after n = L.get mem n
  /-- Nothing but the bytes of an entry is written. -/
  outside : ∀ a : U64, (∀ p ∈ entries, ∀ k < L.bytes, a ≠ L.entry p.1 + BitVec.ofNat 64 k) → after a = mem a

/-! ### Its entries are cells -/

theorem word_lt (i : Fin L.size) : w / 8 * i < L.bytes := by
  have hlt := Nat.mul_lt_mul_of_pos_left i.isLt L.width_pos
  rw [Nat.mul_comm _ L.size, L.size_eq] at hlt
  exact hlt

theorem entry_bytes_le (n : U16) : L.bytes * n.toNat ≤ 32 * n.toNat := Nat.mul_le_mul_right n.toNat L.bytes_le

/-- A byte of an entry is told by the entry and its place in it. -/
theorem entry_byte_injective {n n' : U16} {k k' : Nat} (hk : k < L.bytes) (hk' : k' < L.bytes)
    (h : L.entry n + BitVec.ofNat 64 k = L.entry n' + BitVec.ofNat 64 k') : n = n' ∧ k = k' := by
  have hle := L.bytes_le
  have hn := L.entry_bytes_le n
  have hn' := L.entry_bytes_le n'
  have hlt := n.isLt
  have hlt' := n'.isLt
  rw [entry, entry, BitVec.add_assoc, BitVec.add_assoc, BitVec.add_right_inj, ← BitVec.ofNat_add, ← BitVec.ofNat_add]
    at h
  have hsum := congrArg BitVec.toNat h
  rw [BitVec.toNat_ofNat, BitVec.toNat_ofNat, Nat.mod_eq_of_lt (by omega), Nat.mod_eq_of_lt (by omega)] at hsum
  have hentry := congrArg (· / L.bytes) hsum
  have hplace := congrArg (· % L.bytes) hsum
  simp only [Nat.mul_add_div (Nat.zero_lt_of_lt hk), Nat.div_eq_of_lt hk, Nat.div_eq_of_lt hk', Nat.add_zero]
    at hentry
  simp only [Nat.mul_add_mod, Nat.mod_eq_of_lt hk, Nat.mod_eq_of_lt hk'] at hplace
  exact ⟨BitVec.eq_of_toNat_eq hentry, hplace⟩

def cells : Cells U64 U16 L.size where
  cell n := L.wordAddr (L.entry n)
  apart n n' i i' h := by
    obtain ⟨hn, hword⟩ := L.entry_byte_injective (L.word_lt i) (L.word_lt i') h
    exact ⟨hn, Fin.ext (Nat.eq_of_mul_eq_mul_left L.width_pos hword)⟩

theorem get_eq (mem : U64 → BitVec w) (n : U16) : L.get mem n = .returns (L.decode (L.cells.read n mem)) := by
  rw [get, L.entryAddr_eq, Exec.returns_bind]
  rfl

def writes (entries : List (U16 × E)) : List (L.cells.slots (BitVec w)).Call :=
  entries.map fun p => ⟨p.1, L.encode p.2⟩

theorem putAll_eq (mem : U64 → BitVec w) (entries : List (U16 × E)) :
    L.putAll mem entries = .returns ((L.cells.slots (BitVec w)).run mem (L.writes entries)) := by
  induction entries generalizing mem with
  | nil => rfl
  | cons p entries ih =>
    rw [putAll, put, L.entryAddr_eq, Exec.returns_bind, Exec.pure_eq, Exec.returns_bind, ih]
    rfl

theorem writes_unset {entries : List (U16 × E)} {n : U16} (h : ∀ p ∈ entries, p.1 ≠ n) :
    (L.cells.slots (BitVec w)).Unset n (L.writes entries) :=
  List.forall_mem_map.mpr fun p hp => (h p hp).symm

theorem holds (mem : U64 → BitVec w) (entries : List (U16 × E)) :
    ∃ after, L.putAll mem entries = .returns after ∧ L.Holds mem after entries := by
  have hfaithful := L.cells.faithful mem (L.writes entries)
  refine ⟨_, L.putAll_eq mem entries, ?_, ?_, ?_⟩
  · rintro n e ⟨pre, post, rfl, hpost⟩
    have hread := hfaithful.last n (L.encode e) (L.writes pre) (L.writes post)
      (by rw [writes, List.map_append]; rfl) (L.writes_unset hpost)
    exact (L.get_eq _ n).trans (congrArg (fun ws => Exec.returns (L.decode ws)) hread)
  · intro n hn
    have hread := hfaithful.unset n (L.writes_unset hn)
    rw [L.get_eq, L.get_eq]
    exact congrArg (fun ws => Exec.returns (L.decode ws)) hread
  · intro a ha
    exact L.cells.run_other mem (L.writes entries)
      (List.forall_mem_map.mpr fun p hp i => ha p hp (w / 8 * i) (L.word_lt i))

end Log

/-! ### The three logs -/

section Instances
open Intel Intel.Regs Amd.Regs Amd.Events Amd.Ppr

/-- The fault recording registers of a unit. -/
def faultLog (cap : Cap) : Log 64 FaultRecord FaultRecord where
  entryAddr := faultRecOffset cap
  bytes := 16
  size := 2
  encode r
    | 0 => r.words.w0
    | 1 => r.words.w1
  decode ws := .fromWords (ws 0) (ws 1)
  start := extractBits cap.value 33 24 <<< 4
  entryAddr_eq n := (faultRecOffset_eq cap n).1
  bytes_le := by decide
  width_pos := by decide
  size_eq := rfl

theorem bufferAddr_eq (b : BufferBase) (n : U16) :
    b.entryAddr n = .returns (b.base + BitVec.ofNat 64 (16 * n.toNat)) := by
  obtain ⟨a, ha, hvalue⟩ := b.entryAddr_eq n
  have hbase : BitVec.ofNat 64 b.base.toNat = b.base := by rw [BitVec.ofNat_toNat, BitVec.setWidth_eq]
  rw [ha, ← hbase, ← BitVec.ofNat_add, ← hvalue, BitVec.ofNat_toNat, BitVec.setWidth_eq]

/-- The dwords of an entry, by their place. -/
def dword (d : Dwords) : Fin 4 → U32
  | 0 => d.d0
  | 1 => d.d1
  | 2 => d.d2
  | 3 => d.d3

/-- A log in a buffer. -/
def bufferLog {E R : Type} (b : BufferBase) (words : E → Dwords) (read : Dwords → R) : Log 32 E R where
  entryAddr := b.entryAddr
  bytes := 16
  size := 4
  encode e := dword (words e)
  decode ws := read ⟨ws 0, ws 1, ws 2, ws 3⟩
  start := b.base
  entryAddr_eq := bufferAddr_eq b
  bytes_le := by decide
  width_pos := by decide
  size_eq := rfl

def eventLog (b : BufferBase) : Log 32 Event Event := bufferLog b Event.words Event.fromWords

def pprLog (b : BufferBase) : Log 32 PprEntry PprEntry := bufferLog b PprEntry.words PprEntry.fromWords

end Instances

/-- **Logs hold what is logged**: after any entries were logged, in any order and at any
numbers, the entry of each number is decoded from the words that were last logged there, or
is what it was. -/
theorem logs_hold :
    (∀ cap mem entries, ∃ after, (faultLog cap).putAll mem entries = .returns after ∧
      (faultLog cap).Holds mem after entries) ∧
    (∀ b mem entries, ∃ after, (eventLog b).putAll mem entries = .returns after ∧
      (eventLog b).Holds mem after entries) ∧
    (∀ b mem entries, ∃ after, (pprLog b).putAll mem entries = .returns after ∧
      (pprLog b).Holds mem after entries) :=
  ⟨fun cap => (faultLog cap).holds, fun b => (eventLog b).holds, fun b => (pprLog b).holds⟩

end Iommu.Logs
