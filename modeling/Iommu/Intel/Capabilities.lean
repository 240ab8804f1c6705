import Iommu.Bits
import Iommu.Lib.Accessors

/-! Registers that the driver reads (`intel-iommu/src/regs.rs`).

What the hardware can do is told by the capability registers, one accessor a field, and
where the root table is by the register that it was written to. No two accessors of a
register read one bit (`registers_separate`), so each tells of its field and of nothing
else. -/
namespace Iommu.Intel.Regs
open Lib

/-! ### The capability register -/

structure Cap where
  value : U64
  deriving DecidableEq, Repr

namespace Cap

/-- `2^(ND*2 + 4)`. -/
def domainIds (c : Cap) : Exec U32 := do
  let nd ← Exec.mul 2#32 ((extractBits c.value 2 0).setWidth 32)
  let shift ← Exec.add 4#32 nd
  Exec.shl 1#32 shift.toNat

def rwbf (c : Cap) : Bool := extractBits c.value 4 4 != 0#64

def plmr (c : Cap) : Bool := extractBits c.value 5 5 != 0#64

def phmr (c : Cap) : Bool := extractBits c.value 6 6 != 0#64

def cachingMode (c : Cap) : Bool := extractBits c.value 7 7 != 0#64

def sagaw (c : Cap) : U8 := (extractBits c.value 12 8).setWidth 8

def mgaw (c : Cap) : Exec U32 := Exec.add ((extractBits c.value 21 16).setWidth 32) 1#32

def zlr (c : Cap) : Bool := extractBits c.value 22 22 != 0#64

def dep (c : Cap) : Bool := extractBits c.value 23 23 != 0#64

def faultRecOffsetRaw (c : Cap) : U16 := (extractBits c.value 33 24).setWidth 16

def sslps (c : Cap) : U8 := (extractBits c.value 37 34).setWidth 8

def pageSelectiveInval (c : Cap) : Bool := extractBits c.value 39 39 != 0#64

def numFaultRegs (c : Cap) : Exec U16 := Exec.add ((extractBits c.value 47 40).setWidth 16) 1#16

def maxAmaskValue (c : Cap) : U8 := (extractBits c.value 53 48).setWidth 8

def writeDrain (c : Cap) : Bool := extractBits c.value 54 54 != 0#64

def readDrain (c : Cap) : Bool := extractBits c.value 55 55 != 0#64

def fs1gPages (c : Cap) : Bool := extractBits c.value 56 56 != 0#64

def postedInterrupts (c : Cap) : Bool := extractBits c.value 59 59 != 0#64

def fs5level (c : Cap) : Bool := extractBits c.value 60 60 != 0#64

def enhancedCommands (c : Cap) : Bool := extractBits c.value 61 61 != 0#64

def esirtps (c : Cap) : Bool := extractBits c.value 62 62 != 0#64

def esrtps (c : Cap) : Bool := extractBits c.value 63 63 != 0#64

end Cap

/-! ### The extended capability register -/

structure Ecap where
  value : U64
  deriving DecidableEq, Repr

namespace Ecap

def coherent (e : Ecap) : Bool := extractBits e.value 0 0 != 0#64

def queuedInval (e : Ecap) : Bool := extractBits e.value 1 1 != 0#64

def devTlb (e : Ecap) : Bool := extractBits e.value 2 2 != 0#64

def intrRemap (e : Ecap) : Bool := extractBits e.value 3 3 != 0#64

def extendedIntrMode (e : Ecap) : Bool := extractBits e.value 4 4 != 0#64

def passThrough (e : Ecap) : Bool := extractBits e.value 6 6 != 0#64

def snoopControl (e : Ecap) : Bool := extractBits e.value 7 7 != 0#64

def iotlbOffsetRaw (e : Ecap) : U16 := (extractBits e.value 17 8).setWidth 16

def maxHandleMask (e : Ecap) : U8 := (extractBits e.value 23 20).setWidth 8

def memoryType (e : Ecap) : Bool := extractBits e.value 25 25 != 0#64

def nested (e : Ecap) : Bool := extractBits e.value 26 26 != 0#64

def deferredInval (e : Ecap) : Bool := extractBits e.value 27 27 != 0#64

def pageRequests (e : Ecap) : Bool := extractBits e.value 29 29 != 0#64

def executeRequests (e : Ecap) : Bool := extractBits e.value 30 30 != 0#64

def supervisorRequests (e : Ecap) : Bool := extractBits e.value 31 31 != 0#64

def noWriteFlag (e : Ecap) : Bool := extractBits e.value 33 33 != 0#64

def extendedAccessedFlag (e : Ecap) : Bool := extractBits e.value 34 34 != 0#64

def pasidSize (e : Ecap) : U8 := (extractBits e.value 39 35).setWidth 8

def pasid (e : Ecap) : Bool := extractBits e.value 40 40 != 0#64

def devtlbInvalThrottle (e : Ecap) : Bool := extractBits e.value 41 41 != 0#64

def pasidDevtlb (e : Ecap) : Bool := extractBits e.value 42 42 != 0#64

def scalableMode (e : Ecap) : Bool := extractBits e.value 43 43 != 0#64

def virtualCommands (e : Ecap) : Bool := extractBits e.value 44 44 != 0#64

def ssAccessedDirty (e : Ecap) : Bool := extractBits e.value 45 45 != 0#64

def secondStage (e : Ecap) : Bool := extractBits e.value 46 46 != 0#64

def firstStage (e : Ecap) : Bool := extractBits e.value 47 47 != 0#64

def smPageWalkCoherency (e : Ecap) : Bool := extractBits e.value 48 48 != 0#64

def ridPasid (e : Ecap) : Bool := extractBits e.value 49 49 != 0#64

def tdxConnect (e : Ecap) : Bool := extractBits e.value 50 50 != 0#64

def perfMonitoring (e : Ecap) : Bool := extractBits e.value 51 51 != 0#64

def abortDmaMode (e : Ecap) : Bool := extractBits e.value 52 52 != 0#64

def ridPriv (e : Ecap) : Bool := extractBits e.value 53 53 != 0#64

def hostPermissionTable (e : Ecap) : Bool := extractBits e.value 55 55 != 0#64

def pasidTranslated (e : Ecap) : Bool := extractBits e.value 56 56 != 0#64

def ssIoRwBits (e : Ecap) : Bool := extractBits e.value 57 57 != 0#64

def stopMarker (e : Ecap) : Bool := extractBits e.value 58 58 != 0#64

def hpt1gPages (e : Ecap) : Bool := extractBits e.value 59 59 != 0#64

def rdtConfig (e : Ecap) : Bool := extractBits e.value 60 60 != 0#64

def eimRequired (e : Ecap) : Bool := extractBits e.value 61 61 != 0#64

def irRequired (e : Ecap) : Bool := extractBits e.value 62 62 != 0#64

end Ecap

/-! ### Registers that the capabilities place -/

/-- The addresses of the two registers of an IOTLB invalidation. -/
def iotlbOffset (ecap : Ecap) : Exec (U64 × U64) := do
  let iva := extractBits ecap.value 17 8 <<< 4
  let iotlb ← Exec.add iva 8#64
  return (iva, iotlb)

/-- The address of fault recording register `n`. -/
def faultRecOffset (cap : Cap) (n : U16) : Exec U64 := do
  let first := extractBits cap.value 33 24 <<< 4
  let past ← Exec.mul (n.setWidth 64) 16#64
  Exec.add first past

/-- A place that a register gives in units of 16 bytes. -/
theorem placed_at (v : U64) {lo : Nat} (h : lo + 10 ≤ 64) :
    (extractBits v (lo + 9) lo <<< 4).toNat = 16 * ((extractBits v (lo + 9) lo).setWidth 16).toNat := by
  have hfield : (extractBits v (lo + 9) lo).toNat = v.toNat / 2 ^ lo % 2 ^ 10 :=
    toNat_extractBits v (by omega) (by omega) (by omega)
  rw [BitVec.toNat_shiftLeft, Nat.shiftLeft_eq, BitVec.toNat_setWidth]
  omega

/-- An IOTLB invalidation has the two qwords at its place. -/
theorem iotlbOffset_eq (ecap : Ecap) : ∃ iva iotlb, iotlbOffset ecap = .returns (iva, iotlb) ∧
    iva.toNat = 16 * ecap.iotlbOffsetRaw.toNat ∧ iotlb.toNat = iva.toNat + 8 := by
  have hplace : (extractBits ecap.value 17 8 <<< 4).toNat = 16 * ecap.iotlbOffsetRaw.toNat :=
    placed_at ecap.value (by decide)
  have hlt : (extractBits ecap.value 17 8 <<< 4).toNat + (8#64).toNat < 2 ^ 64 := by
    have := ecap.iotlbOffsetRaw.isLt
    rw [hplace, BitVec.toNat_ofNat]
    omega
  refine ⟨_, _, by rw [iotlbOffset, Exec.add_of_lt hlt]; rfl, hplace, ?_⟩
  rw [BitVec.toNat_add_of_lt hlt]
  rfl

/-- Sixteen bytes for each register before it. -/
theorem faultRecOffset_eq (cap : Cap) (n : U16) :
    faultRecOffset cap n = .returns ((extractBits cap.value 33 24 <<< 4) + BitVec.ofNat 64 (16 * n.toNat)) ∧
      ((extractBits cap.value 33 24 <<< 4) + BitVec.ofNat 64 (16 * n.toNat)).toNat =
        16 * cap.faultRecOffsetRaw.toNat + 16 * n.toNat := by
  have hplace : (extractBits cap.value 33 24 <<< 4).toNat = 16 * cap.faultRecOffsetRaw.toNat :=
    placed_at cap.value (by decide)
  have hraw := cap.faultRecOffsetRaw.isLt
  have hn := n.isLt
  have hwide : (n.setWidth 64).toNat = n.toNat := BitVec.toNat_setWidth_of_le (by decide)
  have hmul : (n.setWidth 64).toNat * (16#64).toNat < 2 ^ 64 := by
    rw [hwide, BitVec.toNat_ofNat]
    omega
  have hpast : n.setWidth 64 * 16#64 = BitVec.ofNat 64 (16 * n.toNat) := by
    apply BitVec.eq_of_toNat_eq
    rw [BitVec.toNat_mul, hwide, Nat.mul_comm, BitVec.toNat_ofNat]
    rfl
  have hpast_lt : (BitVec.ofNat 64 (16 * n.toNat)).toNat = 16 * n.toNat := by
    rw [BitVec.toNat_ofNat]
    omega
  have hadd : (extractBits cap.value 33 24 <<< 4).toNat + (BitVec.ofNat 64 (16 * n.toNat)).toNat < 2 ^ 64 := by
    omega
  constructor
  · rw [faultRecOffset, Exec.mul_of_lt hmul, Exec.returns_bind, hpast, Exec.add_of_lt hadd]
  · rw [BitVec.toNat_add_of_lt hadd, hplace, hpast_lt]

/-! ### The root table address and the version -/

inductive TableMode where
  | legacy | scalable | abortDma | reserved
  deriving DecidableEq, Repr

structure Rtaddr where
  value : U64
  deriving DecidableEq, Repr

namespace Rtaddr

def tableMode (r : Rtaddr) : TableMode :=
  match extractBits r.value 11 10 with
  | 0#64 => .legacy
  | 1#64 => .scalable
  | 2#64 => .abortDma
  | _ => .reserved

def tableBase (r : Rtaddr) : U64 := extractBits r.value 63 12 <<< 12

end Rtaddr

structure Version where
  major : U8
  minor : U8
  deriving DecidableEq, Repr

def Version.new (raw : U32) : Version := ⟨((raw &&& 0xf0#32) >>> 4).setWidth 8, (raw &&& 0x0f#32).setWidth 8⟩

/-! ### Accessors -/

/-- An accessor of one bit. -/
def flagAccessor (i : Nat) (hi : i ≤ 63) (get : U64 → Bool) (h : ∀ x, get x = (extractBits x i i != 0#64)) :
    Accessor 64 where
  Val := Bool
  lo := i
  width := 1
  read b := b.getLsbD 0
  read_injective := by
    unfold Function.Injective
    decide
  get := get
  get_eq x := by
    have hbit : ∀ b : BitVec 1, b = BitVec.ofBool (b.getLsbD 0) := by decide
    rw [h, extractBits_flag x hi]
    exact hbit _

/-- An accessor of a number, cast to a type that holds it. -/
def numberAccessor (lo n k : Nat) (hn : 0 < n ∧ n ≤ k) (hw : lo + n ≤ 64) (get : U64 → BitVec k)
    (h : ∀ x, get x = (extractBits x (lo + n - 1) lo).setWidth k) : Accessor 64 where
  Val := BitVec k
  lo := lo
  width := n
  read b := b.setWidth k
  read_injective := Word.setWidth_injective hn.2
  get := get
  get_eq x := by rw [h, setWidth_extractBits n x (by omega) hn.1 (by omega)]

/-- An accessor of a number that is kept less one. -/
def succAccessor (lo n k : Nat) (hn : 0 < n ∧ n < k) (hw : lo + n ≤ 64) (get : U64 → Exec (BitVec k))
    (h : ∀ x, get x = Exec.add ((extractBits x (lo + n - 1) lo).setWidth k) 1#k) : Accessor 64 where
  Val := Exec (BitVec k)
  lo := lo
  width := n
  read b := .returns (b.setWidth k + 1#k)
  read_injective b b' hread := by
    have hsum : b.setWidth k + 1#k = b'.setWidth k + 1#k := Exec.returns.inj hread
    exact Word.setWidth_injective (Nat.le_of_lt hn.2) (add_right_cancel hsum)
  get := get
  get_eq x := by
    have hfits : ((x.extractLsb' lo n).setWidth k).toNat + (1#k).toNat < 2 ^ k := by
      have hpow : 2 ^ n * 2 ≤ 2 ^ k := by
        rw [← Nat.pow_succ]
        exact Nat.pow_le_pow_right (by decide) hn.2
      have hlt := (x.extractLsb' lo n).isLt
      have hone : (1#k).toNat ≤ 1 := Nat.mod_le 1 _
      have hpos := Nat.two_pow_pos n
      rw [BitVec.toNat_setWidth_of_le (Nat.le_of_lt hn.2)]
      omega
    rw [h, setWidth_extractBits n x (by omega) hn.1 (by omega), Exec.add_of_lt hfits]

namespace Cap

def domainIdsAccessor : Accessor 64 where
  Val := Exec U32
  lo := 0
  width := 3
  read b := .returns (1#32 <<< (4 + 2 * b.toNat))
  read_injective := by
    unfold Function.Injective
    decide
  get x := domainIds ⟨x⟩
  get_eq x := by
    have hread : ∀ b : BitVec 3, (Exec.mul 2#32 (b.setWidth 32) >>= fun nd => Exec.add 4#32 nd >>= fun shift =>
        Exec.shl 1#32 shift.toNat) = .returns (1#32 <<< (4 + 2 * b.toNat)) := by decide
    rw [domainIds, setWidth_extractBits 3 x rfl (by decide) (by decide), hread]

def accessors : List (Accessor 64) :=
  [domainIdsAccessor,
    flagAccessor 4 (by decide) (fun x => rwbf ⟨x⟩) fun _ => rfl,
    flagAccessor 5 (by decide) (fun x => plmr ⟨x⟩) fun _ => rfl,
    flagAccessor 6 (by decide) (fun x => phmr ⟨x⟩) fun _ => rfl,
    flagAccessor 7 (by decide) (fun x => cachingMode ⟨x⟩) fun _ => rfl,
    numberAccessor 8 5 8 (by decide) (by decide) (fun x => sagaw ⟨x⟩) fun _ => rfl,
    succAccessor 16 6 32 (by decide) (by decide) (fun x => mgaw ⟨x⟩) fun _ => rfl,
    flagAccessor 22 (by decide) (fun x => zlr ⟨x⟩) fun _ => rfl,
    flagAccessor 23 (by decide) (fun x => dep ⟨x⟩) fun _ => rfl,
    numberAccessor 24 10 16 (by decide) (by decide) (fun x => faultRecOffsetRaw ⟨x⟩) fun _ => rfl,
    numberAccessor 34 4 8 (by decide) (by decide) (fun x => sslps ⟨x⟩) fun _ => rfl,
    flagAccessor 39 (by decide) (fun x => pageSelectiveInval ⟨x⟩) fun _ => rfl,
    succAccessor 40 8 16 (by decide) (by decide) (fun x => numFaultRegs ⟨x⟩) fun _ => rfl,
    numberAccessor 48 6 8 (by decide) (by decide) (fun x => maxAmaskValue ⟨x⟩) fun _ => rfl,
    flagAccessor 54 (by decide) (fun x => writeDrain ⟨x⟩) fun _ => rfl,
    flagAccessor 55 (by decide) (fun x => readDrain ⟨x⟩) fun _ => rfl,
    flagAccessor 56 (by decide) (fun x => fs1gPages ⟨x⟩) fun _ => rfl,
    flagAccessor 59 (by decide) (fun x => postedInterrupts ⟨x⟩) fun _ => rfl,
    flagAccessor 60 (by decide) (fun x => fs5level ⟨x⟩) fun _ => rfl,
    flagAccessor 61 (by decide) (fun x => enhancedCommands ⟨x⟩) fun _ => rfl,
    flagAccessor 62 (by decide) (fun x => esirtps ⟨x⟩) fun _ => rfl,
    flagAccessor 63 (by decide) (fun x => esrtps ⟨x⟩) fun _ => rfl]

end Cap

def Ecap.accessors : List (Accessor 64) :=
  [flagAccessor 0 (by decide) (fun x => Ecap.coherent ⟨x⟩) fun _ => rfl,
    flagAccessor 1 (by decide) (fun x => Ecap.queuedInval ⟨x⟩) fun _ => rfl,
    flagAccessor 2 (by decide) (fun x => Ecap.devTlb ⟨x⟩) fun _ => rfl,
    flagAccessor 3 (by decide) (fun x => Ecap.intrRemap ⟨x⟩) fun _ => rfl,
    flagAccessor 4 (by decide) (fun x => Ecap.extendedIntrMode ⟨x⟩) fun _ => rfl,
    flagAccessor 6 (by decide) (fun x => Ecap.passThrough ⟨x⟩) fun _ => rfl,
    flagAccessor 7 (by decide) (fun x => Ecap.snoopControl ⟨x⟩) fun _ => rfl,
    numberAccessor 8 10 16 (by decide) (by decide) (fun x => Ecap.iotlbOffsetRaw ⟨x⟩) fun _ => rfl,
    numberAccessor 20 4 8 (by decide) (by decide) (fun x => Ecap.maxHandleMask ⟨x⟩) fun _ => rfl,
    flagAccessor 25 (by decide) (fun x => Ecap.memoryType ⟨x⟩) fun _ => rfl,
    flagAccessor 26 (by decide) (fun x => Ecap.nested ⟨x⟩) fun _ => rfl,
    flagAccessor 27 (by decide) (fun x => Ecap.deferredInval ⟨x⟩) fun _ => rfl,
    flagAccessor 29 (by decide) (fun x => Ecap.pageRequests ⟨x⟩) fun _ => rfl,
    flagAccessor 30 (by decide) (fun x => Ecap.executeRequests ⟨x⟩) fun _ => rfl,
    flagAccessor 31 (by decide) (fun x => Ecap.supervisorRequests ⟨x⟩) fun _ => rfl,
    flagAccessor 33 (by decide) (fun x => Ecap.noWriteFlag ⟨x⟩) fun _ => rfl,
    flagAccessor 34 (by decide) (fun x => Ecap.extendedAccessedFlag ⟨x⟩) fun _ => rfl,
    numberAccessor 35 5 8 (by decide) (by decide) (fun x => Ecap.pasidSize ⟨x⟩) fun _ => rfl,
    flagAccessor 40 (by decide) (fun x => Ecap.pasid ⟨x⟩) fun _ => rfl,
    flagAccessor 41 (by decide) (fun x => Ecap.devtlbInvalThrottle ⟨x⟩) fun _ => rfl,
    flagAccessor 42 (by decide) (fun x => Ecap.pasidDevtlb ⟨x⟩) fun _ => rfl,
    flagAccessor 43 (by decide) (fun x => Ecap.scalableMode ⟨x⟩) fun _ => rfl,
    flagAccessor 44 (by decide) (fun x => Ecap.virtualCommands ⟨x⟩) fun _ => rfl,
    flagAccessor 45 (by decide) (fun x => Ecap.ssAccessedDirty ⟨x⟩) fun _ => rfl,
    flagAccessor 46 (by decide) (fun x => Ecap.secondStage ⟨x⟩) fun _ => rfl,
    flagAccessor 47 (by decide) (fun x => Ecap.firstStage ⟨x⟩) fun _ => rfl,
    flagAccessor 48 (by decide) (fun x => Ecap.smPageWalkCoherency ⟨x⟩) fun _ => rfl,
    flagAccessor 49 (by decide) (fun x => Ecap.ridPasid ⟨x⟩) fun _ => rfl,
    flagAccessor 50 (by decide) (fun x => Ecap.tdxConnect ⟨x⟩) fun _ => rfl,
    flagAccessor 51 (by decide) (fun x => Ecap.perfMonitoring ⟨x⟩) fun _ => rfl,
    flagAccessor 52 (by decide) (fun x => Ecap.abortDmaMode ⟨x⟩) fun _ => rfl,
    flagAccessor 53 (by decide) (fun x => Ecap.ridPriv ⟨x⟩) fun _ => rfl,
    flagAccessor 55 (by decide) (fun x => Ecap.hostPermissionTable ⟨x⟩) fun _ => rfl,
    flagAccessor 56 (by decide) (fun x => Ecap.pasidTranslated ⟨x⟩) fun _ => rfl,
    flagAccessor 57 (by decide) (fun x => Ecap.ssIoRwBits ⟨x⟩) fun _ => rfl,
    flagAccessor 58 (by decide) (fun x => Ecap.stopMarker ⟨x⟩) fun _ => rfl,
    flagAccessor 59 (by decide) (fun x => Ecap.hpt1gPages ⟨x⟩) fun _ => rfl,
    flagAccessor 60 (by decide) (fun x => Ecap.rdtConfig ⟨x⟩) fun _ => rfl,
    flagAccessor 61 (by decide) (fun x => Ecap.eimRequired ⟨x⟩) fun _ => rfl,
    flagAccessor 62 (by decide) (fun x => Ecap.irRequired ⟨x⟩) fun _ => rfl]

namespace Rtaddr

def tableModeAccessor : Accessor 64 where
  Val := TableMode
  lo := 10
  width := 2
  read b := match b with
    | 0#2 => .legacy
    | 1#2 => .scalable
    | 2#2 => .abortDma
    | _ => .reserved
  read_injective := by
    unfold Function.Injective
    decide
  get x := tableMode ⟨x⟩
  get_eq x := by
    have hfield : extractBits x 11 10 = (x.extractLsb' 10 2).setWidth 64 := extractBits_eq x (by decide) (by decide)
    rw [tableMode, hfield]
    generalize x.extractLsb' 10 2 = b
    revert b
    decide

def tableBaseAccessor : Accessor 64 where
  Val := U64
  lo := 12
  width := 52
  read b := Word.place 64 12 b
  read_injective := Word.place_injective 12 (by decide)
  get x := tableBase ⟨x⟩
  get_eq x := by rw [tableBase, extractBits_eq x (by decide) (by decide), Word.place]

def accessors : List (Accessor 64) := [tableModeAccessor, tableBaseAccessor]

end Rtaddr

namespace Version

def majorAccessor : Accessor 32 where
  Val := U8
  lo := 4
  width := 4
  read b := b.setWidth 8
  read_injective := Word.setWidth_injective (by decide)
  get x := (new x).major
  get_eq x := by
    have hmask : 0xf0#32 = Word.mask 32 4 4 := rfl
    have hlow : ((Word.place 32 4 (x.extractLsb' 4 4)) >>> 4).setWidth 8 = (x.extractLsb' 4 4).setWidth 8 := by
      generalize x.extractLsb' 4 4 = b
      revert b
      decide
    rw [new, hmask, Word.and_mask, hlow]

def minorAccessor : Accessor 32 where
  Val := U8
  lo := 0
  width := 4
  read b := b.setWidth 8
  read_injective := Word.setWidth_injective (by decide)
  get x := (new x).minor
  get_eq x := by
    have hmask : 0x0f#32 = Word.mask 32 0 4 := rfl
    rw [new, hmask, Word.and_mask_zero, Word.setWidth_through _ (by decide), Word.setWidth_eq_slice 4 x]

def accessors : List (Accessor 32) := [majorAccessor, minorAccessor]

end Version

/-! ### What the registers tell -/

/-- The accessors of a register are separate and read all of its bits but the reserved ones. -/
structure Decoded {w : Nat} (as : List (Accessor w)) (reserved : List Nat) : Prop where
  separate : Accessor.Separate as
  reserved : ∀ i < w, (Accessor.covered as).getLsbD i = false ↔ i ∈ reserved

/-- **Each accessor tells of its own field**: whatever the fields of a register are to
show, in any combination, one register shows it for each choice of its reserved bits, and
two registers that no accessor tells apart differ in reserved bits only. The registers that
the capabilities place are where their fields tell. -/
theorem registers_separate :
    Decoded Cap.accessors [3, 13, 14, 15, 38, 57, 58] ∧
    Decoded Ecap.accessors [5, 18, 19, 24, 28, 32, 54, 63] ∧
    Decoded Rtaddr.accessors (List.range 10) ∧
    Decoded Version.accessors (List.range' 8 24) ∧
    (∀ ecap : Ecap, ∃ iva iotlb, iotlbOffset ecap = .returns (iva, iotlb) ∧
      iva.toNat = 16 * ecap.iotlbOffsetRaw.toNat ∧ iotlb.toNat = iva.toNat + 8) ∧
    ∀ (cap : Cap) (n : U16), ∃ a, faultRecOffset cap n = .returns a ∧
      a.toNat = 16 * cap.faultRecOffsetRaw.toNat + 16 * n.toNat :=
  ⟨⟨Accessor.separate_of_fitting (by decide), by decide⟩, ⟨Accessor.separate_of_fitting (by decide), by decide⟩,
    ⟨Accessor.separate_of_fitting (by decide), by decide⟩, ⟨Accessor.separate_of_fitting (by decide), by decide⟩,
    iotlbOffset_eq, fun cap n => ⟨_, faultRecOffset_eq cap n⟩⟩

end Iommu.Intel.Regs
