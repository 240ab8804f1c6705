import Iommu.Bits

/-! Buffer base registers (`amd-iommu/src/regs.rs`).

The base registers of the device table and of the three logs share one layout, with the
length of the buffer kept as the order of a power of two. The order has eight bits and
is not checked where it is used as a shift amount: a buffer has a geometry exactly when
its order is below 60 (`geometry_iff`). -/
namespace Iommu.Amd.Regs
open Lib

/-- `entry_offset`. -/
def entryOffset (n : U16) : Exec U64 := Exec.mul (n.setWidth 64) 16#64

structure BufferBase where
  value : U64
  deriving DecidableEq, Repr

namespace BufferBase

def new (base : U64) (lengthOrder : U8) : BufferBase :=
  ⟨(base &&& 0x000ffffffffff000#64) ||| (lengthOrder.setWidth 64 <<< 56)⟩

def base (b : BufferBase) : U64 := b.value &&& 0x000ffffffffff000#64

def lengthOrder (b : BufferBase) : U8 := (extractBits b.value 63 56).setWidth 8

/-- `1u64 << (self.length_order() as u32 + more)`. -/
def power (more : U32) (b : BufferBase) : Exec U64 := do
  let amount ← Exec.add (b.lengthOrder.setWidth 32) more
  Exec.shl 1#64 amount.toNat

def sizeBytes (b : BufferBase) : Exec U64 := b.power 4#32

def entryCount (b : BufferBase) : Exec U64 := b.power 1#32

/-! ### Powers of two -/

/-- The call returns the power of two of the order and `more`. -/
def Exact (more : Nat) (b : BufferBase) (call : Exec U64) : Prop :=
  ∃ x, call = .returns x ∧ x.toNat = 2 ^ (b.lengthOrder.toNat + more)

/-- The sum is made in 32 bits, so only the shift is left to overflow. -/
theorem power_eq {more : U32} (hmore : more.toNat < 2 ^ 31) (b : BufferBase) :
    b.power more = Exec.shl 1#64 (b.lengthOrder.toNat + more.toNat) := by
  have horder : (b.lengthOrder.setWidth 32).toNat = b.lengthOrder.toNat := BitVec.toNat_setWidth_of_le (by decide)
  have hlt : (b.lengthOrder.setWidth 32).toNat + more.toNat < 2 ^ 32 := by
    rw [horder]
    have := b.lengthOrder.isLt
    omega
  rw [power, Exec.add_of_lt hlt, Exec.returns_bind, BitVec.toNat_add_of_lt hlt, horder]

theorem power_exact_iff {more : U32} (hmore : more.toNat < 2 ^ 31) (b : BufferBase) :
    b.Exact more.toNat (b.power more) ↔ b.lengthOrder.toNat + more.toNat < 64 := by
  rw [Exact, power_eq hmore]
  constructor
  · intro ⟨x, hx, _⟩
    exact Exec.returns_shl_iff.mp ⟨x, hx⟩
  · intro h
    exact ⟨_, Exec.shl_of_lt h, Word.toNat_one_shift h⟩

/-! ### Entries -/

/-- Sixteen bytes an entry, from the base on. -/
def entryAddr (b : BufferBase) (n : U16) : Exec U64 := do
  let offset ← entryOffset n
  Exec.add b.base offset

/-- The size and the count are the powers of two of the order, and each entry that starts
before the end of the buffer lies in it. -/
structure Geometry (b : BufferBase) : Prop where
  size : b.Exact 4 b.sizeBytes
  count : b.Exact 1 b.entryCount
  inside : ∀ size, b.sizeBytes = .returns size → ∀ n : U16, 16 * n.toNat < size.toNat →
    ∃ addr, b.entryAddr n = .returns addr ∧ b.base.toNat ≤ addr.toNat ∧
      addr.toNat + 16 ≤ b.base.toNat + size.toNat

theorem base_lt (b : BufferBase) : b.base.toNat < 2 ^ 52 := by
  have hand : b.base.toNat ≤ 0x000ffffffffff000 := by
    rw [base, BitVec.toNat_and]
    exact Nat.and_le_right
  omega

theorem entryOffset_eq (n : U16) : ∃ offset, entryOffset n = .returns offset ∧ offset.toNat = 16 * n.toNat := by
  have hn : (n.setWidth 64).toNat = n.toNat := BitVec.toNat_setWidth_of_le (by decide)
  have hlt : (n.setWidth 64).toNat * (16#64).toNat < 2 ^ 64 := by
    have := n.isLt
    rw [hn, BitVec.toNat_ofNat]
    omega
  refine ⟨_, Exec.mul_of_lt hlt, ?_⟩
  rw [BitVec.toNat_mul_of_lt hlt, hn, Nat.mul_comm]
  rfl

/-- An entry's address is its base and sixteen bytes for each entry before it. -/
theorem entryAddr_eq (b : BufferBase) (n : U16) :
    ∃ addr, b.entryAddr n = .returns addr ∧ addr.toNat = b.base.toNat + 16 * n.toNat := by
  obtain ⟨offset, hoffset, hvalue⟩ := entryOffset_eq n
  have hlt : b.base.toNat + offset.toNat < 2 ^ 64 := by
    have := b.base_lt
    have := n.isLt
    omega
  refine ⟨b.base + offset, ?_, ?_⟩
  · rw [entryAddr, hoffset, Exec.returns_bind, Exec.add_of_lt hlt]
  · rw [BitVec.toNat_add_of_lt hlt, hvalue]

/-- An entry that starts below a multiple of its own size ends below it. -/
theorem entry_le {n k : Nat} (h : 16 * n < 2 ^ (k + 4)) : 16 * n + 16 ≤ 2 ^ (k + 4) := by
  have hsize : 2 ^ (k + 4) = 16 * 2 ^ k := by rw [Nat.pow_add, Nat.mul_comm]
  rw [hsize] at h ⊢
  omega

/-- **Which buffers have a geometry**: those of an order below 60. -/
theorem geometry_iff (b : BufferBase) : b.Geometry ↔ b.lengthOrder.toNat < 60 := by
  have hsize : b.Exact 4 b.sizeBytes ↔ b.lengthOrder.toNat + 4 < 64 := power_exact_iff (by decide) b
  have hcount : b.Exact 1 b.entryCount ↔ b.lengthOrder.toNat + 1 < 64 := power_exact_iff (by decide) b
  constructor
  · intro h
    exact Nat.lt_of_add_lt_add_right (hsize.mp h.size)
  · intro h
    have hexact := hsize.mpr (Nat.add_lt_add_right h 4)
    refine ⟨hexact, hcount.mpr (by omega), fun size hreturns n hn => ?_⟩
    obtain ⟨x, hx, hvalue⟩ := hexact
    cases hx.symm.trans hreturns
    obtain ⟨addr, haddr, hsum⟩ := b.entryAddr_eq n
    rw [hvalue] at hn ⊢
    have := entry_le hn
    exact ⟨addr, haddr, by omega, by omega⟩

/-- A buffer of order 60 has no size. -/
theorem order_60_overflows : (BufferBase.new 0x12345000#64 60#8).sizeBytes = .panics .overflow ∧
    ¬(BufferBase.new 0x12345000#64 60#8).Geometry := by
  have hoverflow : (BufferBase.new 0x12345000#64 60#8).sizeBytes = .panics .overflow := rfl
  refine ⟨hoverflow, fun h => ?_⟩
  obtain ⟨x, hx, -⟩ := h.size
  rw [hoverflow] at hx
  cases hx

end BufferBase
end Iommu.Amd.Regs
