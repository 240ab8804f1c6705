import Iommu.Bits
import Iommu.Lib.Packed

/-! The control register (`amd-iommu/src/regs.rs`).

A flag set of 64 bits that is kept whatever they are. Five of the flags and the timeout have
a setter each, and each setter leaves all the rest of the register as it was
(`control_independent`). -/
namespace Iommu.Amd.Regs
open Lib Lib.Word

/-- The `Control` flag set, as its bits. The source declares its flags; `from_bits_retain`,
which `new` is, and `contains` are methods that the `bitflags` package generates, as it
documents them. -/
structure Control where
  bits : U64
  deriving DecidableEq, Repr

namespace Control

def IOMMU_EN : Control := ⟨1#64 <<< 0⟩
def EVT_LOG_EN : Control := ⟨1#64 <<< 2⟩
def CMD_BUF_EN : Control := ⟨1#64 <<< 12⟩
def PPR_EN : Control := ⟨1#64 <<< 15⟩
def GT_EN : Control := ⟨1#64 <<< 16⟩

def new (raw : U64) : Control := ⟨raw⟩

def contains (c d : Control) : Bool := c.bits &&& d.bits == d.bits

def withIommuEn (en : Bool) (c : Control) : Control := ⟨(c.bits &&& ~~~(1#64 <<< 0)) ||| boolAs 64 en⟩

def withCmdBufEn (en : Bool) (c : Control) : Control := ⟨(c.bits &&& ~~~(1#64 <<< 12)) ||| (boolAs 64 en <<< 12)⟩

def withEvtLogEn (en : Bool) (c : Control) : Control := ⟨(c.bits &&& ~~~(1#64 <<< 2)) ||| (boolAs 64 en <<< 2)⟩

def withPprEn (en : Bool) (c : Control) : Control := ⟨(c.bits &&& ~~~(1#64 <<< 15)) ||| (boolAs 64 en <<< 15)⟩

def withGtEn (en : Bool) (c : Control) : Control := ⟨(c.bits &&& ~~~(1#64 <<< 16)) ||| (boolAs 64 en <<< 16)⟩

def invalidationTimeout (c : Control) : U8 := (extractBits c.bits 7 5).setWidth 8

def withInvalidationTimeout (timeout : U8) (c : Control) : Control :=
  ⟨(c.bits &&& ~~~(0x7#64 <<< 5)) ||| ((timeout &&& 0x7#8).setWidth 64 <<< 5)⟩

/-! ### The fields that have a setter -/

inductive Field where
  | iommuEn | cmdBufEn | evtLogEn | pprEn | gtEn | invalidationTimeout
  deriving DecidableEq

namespace Field

def Val : Field → Type
  | invalidationTimeout => U8
  | _ => Bool

def place : (f : Field) → Place 64 Unit f.Val
  | iommuEn => .flag () 0 (Nat.le_add_left 1 63)
  | cmdBufEn => .flag () 12 (by decide)
  | evtLogEn => .flag () 2 (by decide)
  | pprEn => .flag () 15 (by decide)
  | gtEn => .flag () 16 (by decide)
  | invalidationTimeout => .narrow () 5 3 8 (by decide)

def get : (f : Field) → Control → f.Val
  | iommuEn => fun c => c.contains IOMMU_EN
  | cmdBufEn => fun c => c.contains CMD_BUF_EN
  | evtLogEn => fun c => c.contains EVT_LOG_EN
  | pprEn => fun c => c.contains PPR_EN
  | gtEn => fun c => c.contains GT_EN
  | invalidationTimeout => Control.invalidationTimeout

def set : (f : Field) → f.Val → Control → Control
  | iommuEn => withIommuEn
  | cmdBufEn => withCmdBufEn
  | evtLogEn => withEvtLogEn
  | pprEn => withPprEn
  | gtEn => withGtEn
  | invalidationTimeout => withInvalidationTimeout

/-- The timeout is masked to its field. -/
def kept : (f : Field) → f.Val → f.Val
  | invalidationTimeout => fun (timeout : U8) => timeout &&& 0x7#8
  | _ => id

theorem place_apart (f g : Field) (h : f ≠ g) : f.place.Apart g.place := by
  revert h
  cases f <;> cases g <;> decide

theorem kept_eq (f : Field) (v : f.Val) : f.place.read (f.place.code v) = f.kept v := by
  cases f with
  | invalidationTimeout => exact Place.narrow_normal 3 8 v
  | _ => exact ofBool_bit v

theorem contains_bit (x : U64) (i : Nat) (hi : i < 64) :
    (x &&& (1#64 <<< i) == 1#64 <<< i) = (x.extractLsb' i 1).getLsbD 0 :=
  (has_bit x hi).trans ((flag_eq x i).symm.trans (flag_slice x i))

theorem get_eq (f : Field) (c : Control) : f.get c = f.place.get fun _ => c.bits := by
  cases f with
  | invalidationTimeout => exact setWidth_extractBits 3 c.bits rfl (by decide) (by decide)
  | _ => exact contains_bit c.bits _ (by decide)

theorem put_bool (x : U64) (i : Nat) (v : Bool) :
    (x &&& ~~~(1#64 <<< i)) ||| (boolAs 64 v <<< i) = put i (BitVec.ofBool v) x := put_shift x i (BitVec.ofBool v)

theorem set_word (f : Field) (v : f.Val) (c : Control) : (f.set v c).bits = f.place.put v c.bits := by
  cases f with
  | iommuEn => exact put_low c.bits (BitVec.ofBool v)
  | invalidationTimeout => exact put_masked c.bits 5 3 v (by decide)
  | _ => exact put_bool c.bits _ v

end Field

/-- The register as a record of its six fields. -/
def record : Packed 64 Unit Control Field where
  Val := Field.Val
  place := Field.place
  words c _ := c.bits
  get := Field.get
  set := Field.set
  kept := Field.kept
  apart := Field.place_apart
  kept_eq := Field.kept_eq
  get_eq := Field.get_eq
  set_word := Field.set_word
  set_other _ _ _ _ h := absurd rfl h

end Control

/-- **The fields of the control register are independent**, and none of the flags without a
setter is ever moved by one. -/
theorem control_independent : Control.record.Independent := Control.record.independent

end Iommu.Amd.Regs
