import Iommu.Bytes

/-! Device table entries (`amd-iommu/src/dte.rs`).

Most setters clear a field and OR the value in (`setBits`); under the law of that
one definition each is a put of its field. Three are not: the host root pointer
keeps nothing above itself, the guest pointer is put in three parts, and the
interrupt table pointer puts fewer bits than it clears. -/
namespace Iommu.Amd.Dte
open Lib Lib.Word

/-! ### Paging mode -/

inductive PagingMode where
  | disabled | reserved1 | level1_3 | level1_4 | reserved4 | level2_4 | level2_5 | reserved7
  deriving DecidableEq, Repr

namespace PagingMode

def fromBits (v : U8) : PagingMode :=
  match v &&& 0x7#8 with
  | 0#8 => disabled
  | 1#8 => reserved1
  | 2#8 => level1_3
  | 3#8 => level1_4
  | 4#8 => reserved4
  | 5#8 => level2_4
  | 6#8 => level2_5
  | _ => reserved7

def bits : PagingMode → U8
  | disabled => 0#8
  | reserved1 => 1#8
  | level1_3 => 2#8
  | level1_4 => 3#8
  | reserved4 => 4#8
  | level2_4 => 5#8
  | level2_5 => 6#8
  | reserved7 => 7#8

def translates : PagingMode → Bool
  | level1_3 | level1_4 | level2_4 | level2_5 => true
  | _ => false

end PagingMode

/-! ### The entry -/

structure DeviceTableEntry where
  q0 : U64
  q1 : U64
  q2 : U64
  q3 : U64
  deriving DecidableEq, Repr

/-- The qword with the bits of `mask` at `lo` cleared and `v` put there. -/
def setBits (q mask : U64) (lo : Nat) (v : U64) : U64 := (q &&& ~~~(mask <<< lo)) ||| (v <<< lo)

/-- A `bool` cast by way of `u8`. -/
def flag (b : Bool) : U64 := (boolAs 8 b).setWidth 64

namespace DeviceTableEntry

def new : DeviceTableEntry := ⟨0#64, 0#64, 0#64, 0#64⟩

/-! Host translation, `q0`. -/

def valid (e : DeviceTableEntry) : Bool := e.q0 &&& 1#64 != 0#64

def withValid (v : Bool) (e : DeviceTableEntry) : DeviceTableEntry :=
  { e with q0 := (e.q0 &&& ~~~1#64) ||| flag v }

def translationValid (e : DeviceTableEntry) : Bool := e.q0 &&& 2#64 != 0#64

def withTranslationValid (v : Bool) (e : DeviceTableEntry) : DeviceTableEntry :=
  { e with q0 := (e.q0 &&& ~~~2#64) ||| (flag v <<< 1) }

def pagingMode (e : DeviceTableEntry) : PagingMode := .fromBits ((extractBits e.q0 11 9).setWidth 8)

def withPagingMode (mode : PagingMode) (e : DeviceTableEntry) : DeviceTableEntry :=
  { e with q0 := setBits e.q0 0x7#64 9 ((mode.bits &&& 0x7#8).setWidth 64) }

def had (e : DeviceTableEntry) : U8 := (extractBits e.q0 8 7).setWidth 8

def hostPageTableRoot (e : DeviceTableEntry) : U64 := e.q0 &&& 0x000ffffffffff000#64

/-- Of the old qword only the bits below the pointer are kept. -/
def withHostPageTableRoot (addr : U64) (e : DeviceTableEntry) : DeviceTableEntry :=
  { e with q0 := (e.q0 &&& 0xfff#64) ||| (addr &&& 0x000ffffffffff000#64) }

def pprEnable (e : DeviceTableEntry) : Bool := e.q0 &&& (1#64 <<< 52) != 0#64

def withPprEnable (en : Bool) (e : DeviceTableEntry) : DeviceTableEntry :=
  { e with q0 := setBits e.q0 1#64 52 (flag en) }

def giov (e : DeviceTableEntry) : Bool := e.q0 &&& (1#64 <<< 54) != 0#64

def guestTranslationValid (e : DeviceTableEntry) : Bool := e.q0 &&& (1#64 <<< 55) != 0#64

def withGuestTranslationValid (v : Bool) (e : DeviceTableEntry) : DeviceTableEntry :=
  { e with q0 := setBits e.q0 1#64 55 (flag v) }

def glx (e : DeviceTableEntry) : U8 := (extractBits e.q0 57 56).setWidth 8

def withGlx (glx : U8) (e : DeviceTableEntry) : DeviceTableEntry :=
  { e with q0 := setBits e.q0 0x3#64 56 ((glx &&& 0x3#8).setWidth 64) }

def ir (e : DeviceTableEntry) : Bool := e.q0 &&& (1#64 <<< 61) != 0#64

def withIr (en : Bool) (e : DeviceTableEntry) : DeviceTableEntry :=
  { e with q0 := setBits e.q0 1#64 61 (flag en) }

def iw (e : DeviceTableEntry) : Bool := e.q0 &&& (1#64 <<< 62) != 0#64

def withIw (en : Bool) (e : DeviceTableEntry) : DeviceTableEntry :=
  { e with q0 := setBits e.q0 1#64 62 (flag en) }

/-! Guest translation, `q0` and `q1`. -/

def snoopDisable (e : DeviceTableEntry) : Bool := e.q1 &&& (1#64 <<< 38) != 0#64

def withSnoopDisable (en : Bool) (e : DeviceTableEntry) : DeviceTableEntry :=
  { e with q1 := setBits e.q1 1#64 38 (flag en) }

def ioCoherent (e : DeviceTableEntry) : Bool := !e.snoopDisable

def withIoCoherent (coherent : Bool) (e : DeviceTableEntry) : DeviceTableEntry := withSnoopDisable (!coherent) e

/-- The pointer from its three parts. -/
def guestCr3Table (e : DeviceTableEntry) : U64 :=
  let a := extractBits e.q0 60 58 &&& 0x7#64
  let b := extractBits e.q1 31 16
  let c := extractBits e.q1 63 43
  (c <<< 31) ||| (b <<< 15) ||| (a <<< 12)

def withGuestCr3Table (addr : U64) (e : DeviceTableEntry) : DeviceTableEntry :=
  let p := addr >>> 12
  let q1 := setBits e.q1 0xffff#64 16 ((p >>> 3) &&& 0xffff#64)
  { e with
    q0 := setBits e.q0 0x7#64 58 (p &&& 0x7#64)
    q1 := setBits q1 0x1fffff#64 43 ((p >>> 19) &&& 0x1fffff#64) }

/-! Interrupt remapping, `q2`. -/

def interruptMapValid (e : DeviceTableEntry) : Bool := e.q2 &&& 1#64 != 0#64

def withInterruptMapValid (v : Bool) (e : DeviceTableEntry) : DeviceTableEntry :=
  { e with q2 := (e.q2 &&& ~~~1#64) ||| flag v }

def interruptTableLen (e : DeviceTableEntry) : U8 := (extractBits e.q2 4 1).setWidth 8

def withInterruptTableLen (len : U8) (e : DeviceTableEntry) : DeviceTableEntry :=
  { e with q2 := setBits e.q2 0xf#64 1 ((len &&& 0xf#8).setWidth 64) }

def interruptTablePtr (e : DeviceTableEntry) : U64 := extractBits e.q2 51 6 <<< 7

/-- 38 bits are cleared and 34 put. -/
def withInterruptTablePtr (addr : U64) (e : DeviceTableEntry) : DeviceTableEntry :=
  { e with q2 := setBits e.q2 0x3fffffffff#64 6 ((addr >>> 7) &&& 0x3ffffffff#64) }

def guestPagingMode (e : DeviceTableEntry) : U8 := (extractBits e.q2 55 54).setWidth 8

def withGuestPagingMode (mode : U8) (e : DeviceTableEntry) : DeviceTableEntry :=
  { e with q2 := setBits e.q2 0x3#64 54 ((mode &&& 0x3#8).setWidth 64) }

def domainId (e : DeviceTableEntry) : U16 := (extractBits e.q2 15 0).setWidth 16

def withDomainId (did : U16) (e : DeviceTableEntry) : DeviceTableEntry :=
  { e with q2 := (e.q2 &&& ~~~0xffff#64) ||| did.setWidth 64 }

def initPass (e : DeviceTableEntry) : Bool := e.q2 &&& (1#64 <<< 56) != 0#64

def extintPass (e : DeviceTableEntry) : Bool := e.q2 &&& (1#64 <<< 57) != 0#64

def nmiPass (e : DeviceTableEntry) : Bool := e.q2 &&& (1#64 <<< 58) != 0#64

/-! Guest identifiers, `q3`. -/

def guestDeviceId (e : DeviceTableEntry) : U16 := (extractBits e.q3 31 16).setWidth 16

def withGuestDeviceId (id : U16) (e : DeviceTableEntry) : DeviceTableEntry :=
  { e with q3 := setBits e.q3 0xffff#64 16 (id.setWidth 64) }

def guestId (e : DeviceTableEntry) : U16 := (extractBits e.q3 47 32).setWidth 16

def withGuestId (id : U16) (e : DeviceTableEntry) : DeviceTableEntry :=
  { e with q3 := setBits e.q3 0xffff#64 32 (id.setWidth 64) }

/-! In memory. -/

def intoBytes (e : DeviceTableEntry) : Exec (List U8) := do
  let out := List.replicate 32 0#8
  let out ← Exec.copyInto out 0 8 (u64ToLe e.q0)
  let out ← Exec.copyInto out 8 16 (u64ToLe e.q1)
  let out ← Exec.copyInto out 16 24 (u64ToLe e.q2)
  let out ← Exec.copyInto out 24 out.length (u64ToLe e.q3)
  return out

/-- The entry that its bytes hold. -/
def fromBytes (bytes : List U8) : Exec DeviceTableEntry := do
  let q0 ← readQword bytes 0
  let q1 ← readQword bytes 8
  let q2 ← readQword bytes 16
  let q3 ← readQword bytes 24
  return ⟨q0, q1, q2, q3⟩

def qwords (e : DeviceTableEntry) : List U64 := [e.q0, e.q1, e.q2, e.q3]

theorem intoBytes_eq (e : DeviceTableEntry) : e.intoBytes = .returns (e.qwords.flatMap u64ToLe) := by
  have hzero : List.replicate 32 0#8 = filling [] 4 := rfl
  have hlen : (filling ([] ++ [e.q0] ++ [e.q1] ++ [e.q2]) 1).length = 32 := rfl
  simp (disch := simp) only [intoBytes, hzero, copyInto_filling, Exec.returns_bind, hlen]
  rw [filling_full]
  rfl

theorem wire : Wire intoBytes fromBytes qwords := by
  refine ⟨intoBytes_eq, fun e => ?_⟩
  have h0 : readQword (e.qwords.flatMap u64ToLe) 0 = .returns e.q0 := readQword_toLe 0 rfl rfl
  have h1 : readQword (e.qwords.flatMap u64ToLe) 8 = .returns e.q1 := readQword_toLe 1 rfl rfl
  have h2 : readQword (e.qwords.flatMap u64ToLe) 16 = .returns e.q2 := readQword_toLe 2 rfl rfl
  have h3 : readQword (e.qwords.flatMap u64ToLe) 24 = .returns e.q3 := readQword_toLe 3 rfl rfl
  simp only [intoBytes_eq, Exec.returns_bind, fromBytes, h0, h1, h2, h3, Exec.pure_eq]

end DeviceTableEntry

/-! ### Extents -/

inductive Qword where
  | q0 | q1 | q2 | q3
  deriving DecidableEq

/-- Bits of an entry: the qword, where they start in it, how many they are. -/
structure Extent where
  qword : Qword
  lo : Nat
  width : Nat
  deriving DecidableEq

namespace Extent

def Apart (x y : Extent) : Prop := x.qword ≠ y.qword ∨ x.lo + x.width ≤ y.lo ∨ y.lo + y.width ≤ x.lo

instance (x y : Extent) : Decidable (Apart x y) := instDecidableOr

end Extent

namespace DeviceTableEntry

def qword (e : DeviceTableEntry) : Qword → U64
  | .q0 => e.q0
  | .q1 => e.q1
  | .q2 => e.q2
  | .q3 => e.q3

def slice (e : DeviceTableEntry) (x : Extent) : BitVec x.width :=
  (e.qword x.qword).extractLsb' x.lo x.width

/-- The entry with the bits of an extent replaced. -/
def putAt (e : DeviceTableEntry) (x : Extent) (v : BitVec x.width) : DeviceTableEntry :=
  match x.qword with
  | .q0 => { e with q0 := put x.lo v e.q0 }
  | .q1 => { e with q1 := put x.lo v e.q1 }
  | .q2 => { e with q2 := put x.lo v e.q2 }
  | .q3 => { e with q3 := put x.lo v e.q3 }

theorem qword_putAt (e : DeviceTableEntry) (x : Extent) (v : BitVec x.width) (q : Qword) :
    (e.putAt x v).qword q = if q = x.qword then put x.lo v (e.qword q) else e.qword q := by
  rw [putAt]
  cases hx : x.qword <;> cases q <;> rfl

theorem slice_putAt (e : DeviceTableEntry) (x : Extent) (v : BitVec x.width) (h : x.lo + x.width ≤ 64) :
    (e.putAt x v).slice x = v := by
  rw [slice, qword_putAt, if_pos rfl, slice_put x.lo v _ h]

theorem slice_putAt_apart (e : DeviceTableEntry) (x y : Extent) (v : BitVec x.width) (h : x.Apart y) :
    (e.putAt x v).slice y = e.slice y := by
  rw [slice, qword_putAt]
  split
  case isTrue hq =>
    have hapart := h.resolve_left fun hne => hne hq.symm
    rw [slice_put_apart y.lo x.lo v _ hapart]
    rfl
  case isFalse => rfl

/-- Zeros put over an extent clear every part of it. -/
theorem slice_putAt_zero (e : DeviceTableEntry) (q : Qword) (lo b : Nat) {n m : Nat} (hb : b + m ≤ n)
    (h : lo + n ≤ 64) : (e.putAt ⟨q, lo, n⟩ 0#n).slice ⟨q, lo + b, m⟩ = 0#m := by
  have hwhole : ((e.putAt ⟨q, lo, n⟩ 0#n).qword q).extractLsb' lo n = 0#n := slice_putAt e ⟨q, lo, n⟩ 0#n h
  show ((e.putAt ⟨q, lo, n⟩ 0#n).qword q).extractLsb' (lo + b) m = 0#m
  rw [← slice_slice _ lo b hb, hwhole]
  exact BitVec.extractLsb'_zero

end DeviceTableEntry

/-! ### Setters as puts -/

/-- Clearing a field and ORing a value of its width in is a put. -/
theorem setBits_eq (n : Nat) (q : U64) (lo : Nat) (x : BitVec n) :
    setBits q (mask 64 0 n) lo (x.setWidth 64) = put lo x q := put_shift q lo x

theorem setBits_flag (q : U64) (lo : Nat) (b : Bool) :
    setBits q 1#64 lo (flag b) = put lo (BitVec.ofBool b) q := put_flag q lo b

/-- A value masked to a field and cast is the field's slice cast. -/
theorem masked_eq (n : Nat) {k : Nat} (x : BitVec k) (h : n ≤ k) :
    (x &&& mask k 0 n).setWidth 64 = (x.extractLsb' 0 n).setWidth 64 := by
  rw [masked_low n x h, setWidth_eq_slice n x]

theorem shifted_eq (n : Nat) (x : U64) (a : Nat) :
    (x >>> a) &&& mask 64 0 n = (x.extractLsb' a n).setWidth 64 := by
  rw [and_mask_zero, setWidth_shift]

/-- A pointer kept in place is its bits 51:12. -/
theorem pointer_eq (x : U64) : x &&& 0x000ffffffffff000#64 = place 64 12 (x.extractLsb' 12 40) := by
  have hmask : 0x000ffffffffff000#64 = mask 64 12 40 := rfl
  rw [hmask, and_mask]

namespace PagingMode

def code (m : PagingMode) : BitVec 3 := m.bits.setWidth 3

theorem fromBits_code (m : PagingMode) : fromBits (m.code.setWidth 8) = m := by
  cases m <;> decide

theorem code_eq (m : PagingMode) : (m.bits &&& 0x7#8).setWidth 64 = m.code.setWidth 64 := by
  cases m <;> decide

end PagingMode

namespace DeviceTableEntry
variable (e : DeviceTableEntry)

theorem withValid_eq (v : Bool) : withValid v e = e.putAt ⟨.q0, 0, 1⟩ (BitVec.ofBool v) := by
  rw [withValid, flag, put_flag_low]
  rfl

theorem withTranslationValid_eq (v : Bool) :
    withTranslationValid v e = e.putAt ⟨.q0, 1, 1⟩ (BitVec.ofBool v) := by
  rw [withTranslationValid, putAt, ← put_flag]
  rfl

theorem withPagingMode_eq (mode : PagingMode) :
    withPagingMode mode e = e.putAt ⟨.q0, 9, 3⟩ mode.code := by
  rw [withPagingMode, putAt, mode.code_eq, ← setBits_eq]
  rfl

/-- The bits above the host root pointer are put as zeros. -/
theorem withHostPageTableRoot_eq (addr : U64) : withHostPageTableRoot addr e =
    (e.putAt ⟨.q0, 52, 12⟩ 0#12).putAt ⟨.q0, 12, 40⟩ (addr.extractLsb' 12 40) := by
  have hkept : e.q0 &&& 0xfff#64 = put 52 0#12 e.q0 &&& ~~~mask 64 12 40 := by
    have hlow : 0xfff#64 = ~~~mask 64 52 12 &&& ~~~mask 64 12 40 := rfl
    have hzero : place 64 52 0#12 = 0#64 := rfl
    rw [put, hzero, BitVec.or_zero, BitVec.and_assoc, ← hlow]
  rw [withHostPageTableRoot, hkept, pointer_eq]
  rfl

theorem withPprEnable_eq (en : Bool) : withPprEnable en e = e.putAt ⟨.q0, 52, 1⟩ (BitVec.ofBool en) := by
  rw [withPprEnable, setBits_flag]
  rfl

theorem withGuestTranslationValid_eq (v : Bool) :
    withGuestTranslationValid v e = e.putAt ⟨.q0, 55, 1⟩ (BitVec.ofBool v) := by
  rw [withGuestTranslationValid, setBits_flag]
  rfl

theorem withGlx_eq (glx : U8) : withGlx glx e = e.putAt ⟨.q0, 56, 2⟩ (glx.extractLsb' 0 2) := by
  have hv : (glx &&& 0x3#8).setWidth 64 = (glx.extractLsb' 0 2).setWidth 64 := masked_eq 2 glx (by decide)
  rw [withGlx, hv, putAt, ← setBits_eq]
  rfl

theorem withIr_eq (en : Bool) : withIr en e = e.putAt ⟨.q0, 61, 1⟩ (BitVec.ofBool en) := by
  rw [withIr, setBits_flag]
  rfl

theorem withIw_eq (en : Bool) : withIw en e = e.putAt ⟨.q0, 62, 1⟩ (BitVec.ofBool en) := by
  rw [withIw, setBits_flag]
  rfl

theorem withSnoopDisable_eq (en : Bool) :
    withSnoopDisable en e = e.putAt ⟨.q1, 38, 1⟩ (BitVec.ofBool en) := by
  rw [withSnoopDisable, setBits_flag]
  rfl

/-- The guest pointer is three puts, in two qwords. -/
theorem withGuestCr3Table_eq (addr : U64) : withGuestCr3Table addr e =
    ((e.putAt ⟨.q0, 58, 3⟩ (addr.extractLsb' 12 3)).putAt ⟨.q1, 16, 16⟩ (addr.extractLsb' 15 16)).putAt
      ⟨.q1, 43, 21⟩ (addr.extractLsb' 31 21) := by
  have ha : (addr >>> 12) &&& 0x7#64 = (addr.extractLsb' 12 3).setWidth 64 := shifted_eq 3 addr 12
  have hb : (addr >>> 12 >>> 3) &&& 0xffff#64 = (addr.extractLsb' 15 16).setWidth 64 := by
    rw [← BitVec.shiftRight_add]
    exact shifted_eq 16 addr 15
  have hc : (addr >>> 12 >>> 19) &&& 0x1fffff#64 = (addr.extractLsb' 31 21).setWidth 64 := by
    rw [← BitVec.shiftRight_add]
    exact shifted_eq 21 addr 31
  simp only [withGuestCr3Table, putAt, ha, hb, hc]
  rw [← setBits_eq 3, ← setBits_eq 16, ← setBits_eq 21]
  rfl

theorem withInterruptMapValid_eq (v : Bool) :
    withInterruptMapValid v e = e.putAt ⟨.q2, 0, 1⟩ (BitVec.ofBool v) := by
  rw [withInterruptMapValid, flag, put_flag_low]
  rfl

theorem withInterruptTableLen_eq (len : U8) :
    withInterruptTableLen len e = e.putAt ⟨.q2, 1, 4⟩ (len.extractLsb' 0 4) := by
  have hv : (len &&& 0xf#8).setWidth 64 = (len.extractLsb' 0 4).setWidth 64 := masked_eq 4 len (by decide)
  rw [withInterruptTableLen, hv, putAt, ← setBits_eq]
  rfl

/-- The four bits cleared above the put pointer are put as zeros. -/
theorem withInterruptTablePtr_eq (addr : U64) : withInterruptTablePtr addr e =
    e.putAt ⟨.q2, 6, 38⟩ ((addr.extractLsb' 7 34).setWidth 38) := by
  have hv : (addr >>> 7) &&& 0x3ffffffff#64 = ((addr.extractLsb' 7 34).setWidth 38).setWidth 64 := by
    rw [setWidth_through _ (by decide)]
    exact shifted_eq 34 addr 7
  rw [withInterruptTablePtr, hv, putAt, ← setBits_eq]
  rfl

theorem withDomainId_eq (did : U16) : withDomainId did e = e.putAt ⟨.q2, 0, 16⟩ did := by
  have hput : (e.q2 &&& ~~~0xffff#64) ||| did.setWidth 64 = put 0 did e.q2 := put_low e.q2 did
  rw [withDomainId, hput]
  rfl

theorem withGuestDeviceId_eq (id : U16) : withGuestDeviceId id e = e.putAt ⟨.q3, 16, 16⟩ id := by
  rw [putAt, ← setBits_eq]
  rfl

theorem withGuestId_eq (id : U16) : withGuestId id e = e.putAt ⟨.q3, 32, 16⟩ id := by
  rw [putAt, ← setBits_eq]
  rfl

/-! ### Getters as slices -/

theorem bit_injective : Function.Injective fun v : BitVec 1 => v.getLsbD 0 := by
  intro v v' h
  apply BitVec.eq_of_getLsbD_eq
  intro i hi
  obtain rfl : i = 0 := by omega
  exact h

/-- A getter that loses no bit of its extent returns the same of two entries exactly
when they agree there. -/
theorem read_eq_iff {α : Type} {get : DeviceTableEntry → α} (x : Extent) {read : BitVec x.width → α}
    (hget : ∀ e, get e = read (e.slice x)) (hread : Function.Injective read) (e e' : DeviceTableEntry) :
    get e = get e' ↔ e.slice x = e'.slice x := by
  rw [hget, hget, hread.eq_iff]

theorem valid_eq : e.valid = (e.slice ⟨.q0, 0, 1⟩).getLsbD 0 := flag_slice e.q0 0

theorem translationValid_eq : e.translationValid = (e.slice ⟨.q0, 1, 1⟩).getLsbD 0 := flag_slice e.q0 1

theorem pagingMode_eq : e.pagingMode = .fromBits ((e.slice ⟨.q0, 9, 3⟩).setWidth 8) := by
  rw [pagingMode, setWidth_extractBits 3 e.q0 rfl (by decide) (by decide)]
  rfl

theorem hostPageTableRoot_eq : e.hostPageTableRoot = place 64 12 (e.slice ⟨.q0, 12, 40⟩) :=
  pointer_eq e.q0

theorem pprEnable_eq : e.pprEnable = (e.slice ⟨.q0, 52, 1⟩).getLsbD 0 := flag_slice e.q0 52

theorem guestTranslationValid_eq : e.guestTranslationValid = (e.slice ⟨.q0, 55, 1⟩).getLsbD 0 :=
  flag_slice e.q0 55

theorem glx_eq : e.glx = (e.slice ⟨.q0, 56, 2⟩).setWidth 8 :=
  setWidth_extractBits 2 e.q0 rfl (by decide) (by decide)

theorem ir_eq : e.ir = (e.slice ⟨.q0, 61, 1⟩).getLsbD 0 := flag_slice e.q0 61

theorem iw_eq : e.iw = (e.slice ⟨.q0, 62, 1⟩).getLsbD 0 := flag_slice e.q0 62

theorem snoopDisable_eq : e.snoopDisable = (e.slice ⟨.q1, 38, 1⟩).getLsbD 0 := flag_slice e.q1 38

/-- The layout of a guest pointer, by the parts it is kept in. -/
def guestPointer (a : BitVec 3) (b : BitVec 16) (c : BitVec 21) : List Word.Field :=
  [⟨31, 21, c⟩, ⟨15, 16, b⟩, ⟨12, 3, a⟩]

theorem guestPointer_fitting (a : BitVec 3) (b : BitVec 16) (c : BitVec 21) :
    Fitting 64 (extents (guestPointer a b c)) := of_decide_eq_true rfl

theorem guestPointer_cover (a : BitVec 3) (b : BitVec 16) (c : BitVec 21) :
    cover 64 (guestPointer a b c) = 0x000ffffffffff000#64 := by
  simp only [cover, guestPointer, List.foldr]
  rfl

theorem guestCr3Table_eq : e.guestCr3Table =
    pack 64 (guestPointer (e.slice ⟨.q0, 58, 3⟩) (e.slice ⟨.q1, 16, 16⟩) (e.slice ⟨.q1, 43, 21⟩)) := by
  have ha : extractBits e.q0 60 58 &&& 0x7#64 = (e.q0.extractLsb' 58 3).setWidth 64 := by
    have hx : extractBits e.q0 60 58 = (e.q0.extractLsb' 58 3).setWidth 64 :=
      extractBits_eq e.q0 (by decide) (by decide)
    have hmask : 0x7#64 = mask 64 0 3 := rfl
    simp (disch := decide) only [hx, hmask, and_mask_zero, BitVec.setWidth_setWidth_of_le, BitVec.setWidth_eq]
  have hb : extractBits e.q1 31 16 = (e.q1.extractLsb' 16 16).setWidth 64 :=
    extractBits_eq e.q1 (by decide) (by decide)
  have hc : extractBits e.q1 63 43 = (e.q1.extractLsb' 43 21).setWidth 64 :=
    extractBits_eq e.q1 (by decide) (by decide)
  simp only [guestCr3Table, ha, hb, hc, guestPointer, pack_cons, pack_nil, BitVec.or_zero]
  rw [BitVec.or_assoc]
  rfl

theorem interruptMapValid_eq : e.interruptMapValid = (e.slice ⟨.q2, 0, 1⟩).getLsbD 0 := flag_slice e.q2 0

theorem interruptTableLen_eq : e.interruptTableLen = (e.slice ⟨.q2, 1, 4⟩).setWidth 8 :=
  setWidth_extractBits 4 e.q2 rfl (by decide) (by decide)

theorem interruptTablePtr_eq : e.interruptTablePtr = place 64 7 (e.slice ⟨.q2, 6, 46⟩) := by
  have hx : extractBits e.q2 51 6 = (e.q2.extractLsb' 6 46).setWidth 64 :=
    extractBits_eq e.q2 (by decide) (by decide)
  rw [interruptTablePtr, hx]
  rfl

theorem guestPagingMode_eq : e.guestPagingMode = (e.slice ⟨.q2, 54, 2⟩).setWidth 8 :=
  setWidth_extractBits 2 e.q2 rfl (by decide) (by decide)

theorem domainId_eq : e.domainId = e.slice ⟨.q2, 0, 16⟩ :=
  extractBits_full e.q2 15 0 16 rfl (by decide) (by decide)

theorem initPass_eq : e.initPass = (e.slice ⟨.q2, 56, 1⟩).getLsbD 0 := flag_slice e.q2 56

theorem extintPass_eq : e.extintPass = (e.slice ⟨.q2, 57, 1⟩).getLsbD 0 := flag_slice e.q2 57

theorem nmiPass_eq : e.nmiPass = (e.slice ⟨.q2, 58, 1⟩).getLsbD 0 := flag_slice e.q2 58

theorem guestDeviceId_eq : e.guestDeviceId = e.slice ⟨.q3, 16, 16⟩ :=
  extractBits_full e.q3 31 16 16 rfl (by decide) (by decide)

theorem guestId_eq : e.guestId = e.slice ⟨.q3, 32, 16⟩ :=
  extractBits_full e.q3 47 32 16 rfl (by decide) (by decide)

end DeviceTableEntry

end Iommu.Amd.Dte
