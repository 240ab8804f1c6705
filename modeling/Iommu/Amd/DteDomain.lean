import Iommu.Amd.Dte

/-! The domain tag and the interrupt fields of an entry.

The tag is kept in the low 16 bits of `q2`, where the interrupt map's flag, its
length and the low end of its pointer are kept too. So a setter of either group
leaves the other group as it was only when it puts there the bits that were there
already (`keeps_iff`). -/
namespace Iommu.Amd.Dte
open Lib.Word DeviceTableEntry

/-- A call of a setter of either group. -/
inductive TagCall where
  | domainId (did : U16)
  | interruptMapValid (v : Bool)
  | interruptTableLen (len : U8)
  | interruptTablePtr (addr : U64)

namespace TagCall

def apply (e : DeviceTableEntry) : TagCall → DeviceTableEntry
  | domainId did => withDomainId did e
  | interruptMapValid v => withInterruptMapValid v e
  | interruptTableLen len => withInterruptTableLen len e
  | interruptTablePtr addr => withInterruptTablePtr addr e

/-- The getters of the interrupt group return the same. -/
structure SameInterrupts (e e' : DeviceTableEntry) : Prop where
  interruptMapValid : e'.interruptMapValid = e.interruptMapValid
  interruptTableLen : e'.interruptTableLen = e.interruptTableLen
  interruptTablePtr : e'.interruptTablePtr = e.interruptTablePtr
  guestPagingMode : e'.guestPagingMode = e.guestPagingMode
  initPass : e'.initPass = e.initPass
  extintPass : e'.extintPass = e.extintPass
  nmiPass : e'.nmiPass = e.nmiPass

/-- The call leaves the other group as it was. -/
def Keeps (e : DeviceTableEntry) (c : TagCall) : Prop :=
  match c with
  | domainId _ => SameInterrupts e (c.apply e)
  | _ => (c.apply e).domainId = e.domainId

/-- The bits that the call puts where both groups are kept are there already. -/
def Agrees (e : DeviceTableEntry) : TagCall → Prop
  | domainId did => did.extractLsb' 0 1 = e.q2.extractLsb' 0 1 ∧ did.extractLsb' 1 4 = e.q2.extractLsb' 1 4 ∧
      did.extractLsb' 6 10 = e.q2.extractLsb' 6 10
  | interruptMapValid v => BitVec.ofBool v = e.q2.extractLsb' 0 1
  | interruptTableLen len => len.extractLsb' 0 4 = e.q2.extractLsb' 1 4
  | interruptTablePtr addr => addr.extractLsb' 7 10 = e.q2.extractLsb' 6 10

/-! ### The tag's setter -/

theorem interruptMapValid_withDomainId (e : DeviceTableEntry) (did : U16) :
    (withDomainId did e).interruptMapValid = e.interruptMapValid ↔
      did.extractLsb' 0 1 = e.q2.extractLsb' 0 1 := by
  rw [read_eq_iff ⟨.q2, 0, 1⟩ interruptMapValid_eq bit_injective, withDomainId_eq]
  exact slice_put_eq_iff 0 0 0 1 did e.q2 rfl rfl (by decide)

theorem interruptTableLen_withDomainId (e : DeviceTableEntry) (did : U16) :
    (withDomainId did e).interruptTableLen = e.interruptTableLen ↔
      did.extractLsb' 1 4 = e.q2.extractLsb' 1 4 := by
  rw [read_eq_iff ⟨.q2, 1, 4⟩ interruptTableLen_eq (setWidth_injective (by decide)), withDomainId_eq]
  exact slice_put_eq_iff 0 1 1 4 did e.q2 rfl rfl (by decide)

theorem interruptTablePtr_withDomainId (e : DeviceTableEntry) (did : U16) :
    (withDomainId did e).interruptTablePtr = e.interruptTablePtr ↔
      did.extractLsb' 6 10 = e.q2.extractLsb' 6 10 := by
  rw [read_eq_iff ⟨.q2, 6, 46⟩ interruptTablePtr_eq (place_injective 7 (by decide)), withDomainId_eq]
  exact slice_put_eq_iff 0 6 6 10 did e.q2 rfl rfl (by decide)

theorem slice_withDomainId (e : DeviceTableEntry) (did : U16) (x : Extent) (h : Extent.Apart ⟨.q2, 0, 16⟩ x) :
    (withDomainId did e).slice x = e.slice x := by
  rw [withDomainId_eq, slice_putAt_apart e ⟨.q2, 0, 16⟩ x did h]

theorem sameInterrupts_iff (e : DeviceTableEntry) (did : U16) :
    SameInterrupts e (withDomainId did e) ↔ Agrees e (domainId did) := by
  constructor
  · intro h
    exact ⟨(interruptMapValid_withDomainId e did).mp h.interruptMapValid,
      (interruptTableLen_withDomainId e did).mp h.interruptTableLen,
      (interruptTablePtr_withDomainId e did).mp h.interruptTablePtr⟩
  · rintro ⟨hvalid, hlen, hptr⟩
    exact {
      interruptMapValid := (interruptMapValid_withDomainId e did).mpr hvalid
      interruptTableLen := (interruptTableLen_withDomainId e did).mpr hlen
      interruptTablePtr := (interruptTablePtr_withDomainId e did).mpr hptr
      guestPagingMode := by
        rw [guestPagingMode_eq, slice_withDomainId e did _ (by decide), guestPagingMode_eq]
      initPass := by rw [initPass_eq, slice_withDomainId e did _ (by decide), initPass_eq]
      extintPass := by rw [extintPass_eq, slice_withDomainId e did _ (by decide), extintPass_eq]
      nmiPass := by rw [nmiPass_eq, slice_withDomainId e did _ (by decide), nmiPass_eq] }

/-! ### The interrupt setters -/

/-- A put in the interrupt group keeps the tag when it agrees with it on the bits
they share. -/
theorem domainId_putAt (e : DeviceTableEntry) (lo n k : Nat) (v : BitVec n) (hk : min (lo + n) 16 = lo + k)
    (h : lo + n ≤ 64) :
    (e.putAt ⟨.q2, lo, n⟩ v).domainId = e.domainId ↔ v.extractLsb' 0 k = e.q2.extractLsb' lo k := by
  have hiff := slice_put_eq_iff lo 0 lo k v e.q2 (Nat.max_zero lo) ((Nat.zero_add 16).symm ▸ hk) h
  rw [Nat.sub_self] at hiff
  rw [domainId_eq, domainId_eq]
  exact hiff

theorem domainId_withInterruptMapValid (e : DeviceTableEntry) (v : Bool) :
    (withInterruptMapValid v e).domainId = e.domainId ↔ BitVec.ofBool v = e.q2.extractLsb' 0 1 := by
  rw [withInterruptMapValid_eq, domainId_putAt e 0 1 1 _ rfl (by decide), BitVec.extractLsb'_eq_self]

theorem domainId_withInterruptTableLen (e : DeviceTableEntry) (len : U8) :
    (withInterruptTableLen len e).domainId = e.domainId ↔ len.extractLsb' 0 4 = e.q2.extractLsb' 1 4 := by
  rw [withInterruptTableLen_eq, domainId_putAt e 1 4 4 _ rfl (by decide), BitVec.extractLsb'_eq_self]

theorem domainId_withInterruptTablePtr (e : DeviceTableEntry) (addr : U64) :
    (withInterruptTablePtr addr e).domainId = e.domainId ↔ addr.extractLsb' 7 10 = e.q2.extractLsb' 6 10 := by
  have hshared : ((addr.extractLsb' 7 34).setWidth 38).extractLsb' 0 10 = addr.extractLsb' 7 10 := by
    rw [BitVec.extractLsb'_setWidth_of_le (by decide), slice_slice addr 7 0 (by decide)]
  rw [withInterruptTablePtr_eq, domainId_putAt e 6 38 10 _ rfl (by decide), hshared]

/-- **Which calls keep the other group**: those whose bits are there already. -/
theorem keeps_iff (e : DeviceTableEntry) (c : TagCall) : c.Keeps e ↔ c.Agrees e := by
  cases c with
  | domainId did => exact sameInterrupts_iff e did
  | interruptMapValid v => exact domainId_withInterruptMapValid e v
  | interruptTableLen len => exact domainId_withInterruptTableLen e len
  | interruptTablePtr addr => exact domainId_withInterruptTablePtr e addr

/-- A tag of an odd number makes the interrupt map of a fresh entry valid. -/
theorem odd_domain_maps_interrupts : ¬∀ (e : DeviceTableEntry) (c : TagCall), c.Keeps e := by
  intro h
  have hvalid := (h .new (domainId 1#16)).interruptMapValid
  exact absurd hvalid (by decide)

end TagCall

/-! ### The interrupt table pointer -/

/-- The bits that its getter reads: those put, those cleared above them, and eight
that the setter leaves as they were. -/
theorem slice_withInterruptTablePtr (e : DeviceTableEntry) (addr : U64) :
    (withInterruptTablePtr addr e).slice ⟨.q2, 6, 46⟩ = addr.extractLsb' 7 46 ↔
      addr.extractLsb' 41 4 = 0#4 ∧ e.q2.extractLsb' 44 8 = addr.extractLsb' 45 8 := by
  have hput : (withInterruptTablePtr addr e).q2.extractLsb' 6 38 = place 38 0 (addr.extractLsb' 7 34) := by
    rw [withInterruptTablePtr_eq, place_zero]
    exact slice_put 6 _ e.q2 (by decide)
  have hkept : (withInterruptTablePtr addr e).q2.extractLsb' 44 8 = e.q2.extractLsb' 44 8 := by
    rw [withInterruptTablePtr_eq]
    exact slice_put_apart 44 6 _ e.q2 (by decide)
  have hlow : (withInterruptTablePtr addr e).q2.extractLsb' 6 34 = addr.extractLsb' 7 34 := by
    rw [← slice_slice _ 6 0 (show 0 + 34 ≤ 38 by decide), hput, slice_place 0 _ (by decide)]
  have hmid : (withInterruptTablePtr addr e).q2.extractLsb' 40 4 = 0#4 := by
    rw [← slice_slice _ 6 34 (show 34 + 4 ≤ 38 by decide), hput, slice_place_apart 34 0 _ (by decide)]
  have hsplit := slice_split_iff (withInterruptTablePtr addr e).q2 addr 6 7 34 12
  have htop := slice_split_iff (withInterruptTablePtr addr e).q2 addr 40 41 4 8
  rw [hlow, and_iff_right rfl, htop, hmid, hkept, eq_comm (a := 0#4)] at hsplit
  exact hsplit

/-- **When a pointer is read back**: its bits 44:41, which are not put, are zero and the
bits above them, which are read without being put, are there already. -/
theorem interruptTablePtr_read_iff (e : DeviceTableEntry) (addr : U64) (halign : addr.toNat % 128 = 0)
    (hlt : addr.toNat < 2 ^ 52) : (withInterruptTablePtr addr e).interruptTablePtr = addr ↔
      addr.extractLsb' 41 4 = 0#4 ∧ e.q2.extractLsb' 44 8 = addr.extractLsb' 45 8 := by
  have hfits : addr.toNat < 2 ^ (7 + 46) := Nat.lt_trans hlt (by decide)
  rw [interruptTablePtr_eq, place_eq_iff_of_fits 7 _ addr (by decide), slice_withInterruptTablePtr]
  exact (and_iff_right halign).trans (and_iff_right hfits)

theorem interruptTablePtr_read_small : (withInterruptTablePtr 0xaac000#64 .new).interruptTablePtr = 0xaac000#64 :=
  (interruptTablePtr_read_iff .new 0xaac000#64 (by decide) (by decide)).mpr (by decide)

/-- Bit 41 of a pointer is lost. -/
theorem interruptTablePtr_bit_lost : ¬∀ (e : DeviceTableEntry) (addr : U64), addr.toNat % 128 = 0 →
    addr.toNat < 2 ^ 52 → (withInterruptTablePtr addr e).interruptTablePtr = addr := by
  intro h
  have hread := h .new (1#64 <<< 41) (by decide) (by decide)
  exact absurd hread (by decide)

end Iommu.Amd.Dte
