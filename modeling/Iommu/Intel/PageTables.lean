import Iommu.PageTables.Walk

/-! First-stage and second-stage page tables (`intel-iommu/src/pagetables.rs`). -/
namespace Iommu.Intel.PageTables
open Lib Iommu.PageTables

inductive Stage where
  | first | second
  deriving DecidableEq, Repr

/-- The `Perm` flag set, as its bits. The source declares its flags; `fromBitsTruncate`,
which clears every bit that no flag has, and `contains` are methods that the `bitflags`
package generates, as it documents them. -/
structure Perm where
  bits : U64
  deriving DecidableEq, Repr

namespace Perm

def R : Perm := ⟨1#64 <<< 0⟩
def W : Perm := ⟨1#64 <<< 1⟩
def X : Perm := ⟨1#64 <<< 2⟩
def RW : Perm := ⟨R.bits ||| W.bits⟩
def RWX : Perm := ⟨R.bits ||| W.bits ||| X.bits⟩
def PAGE_SIZE : Perm := ⟨1#64 <<< 7⟩
def ACCESSED : Perm := ⟨1#64 <<< 8⟩
def DIRTY : Perm := ⟨1#64 <<< 9⟩
def GLOBAL : Perm := ⟨1#64 <<< 10⟩
def EXECUTE_DISABLE : Perm := ⟨1#64 <<< 63⟩

/-- Every bit that some flag names. -/
def all : Perm := ⟨RWX.bits ||| PAGE_SIZE.bits ||| ACCESSED.bits ||| DIRTY.bits ||| GLOBAL.bits |||
  EXECUTE_DISABLE.bits⟩

def fromBitsTruncate (bits : U64) : Perm := ⟨bits &&& all.bits⟩

def contains (p q : Perm) : Bool := p.bits &&& q.bits == q.bits

def rxw (p : Perm) : U8 := (p.bits &&& 0x7#64).setWidth 8

end Perm

/-- `walk`: only a second-stage walk checks the width of the address. -/
def walk (stage : Stage) (levels : Nat) (root vaddr : U64) (fetch : U64 → U64) :
    Exec (Except WalkError (WalkResult Perm)) :=
  walkWith Perm.fromBitsTruncate vaddr fetch (stage == .second) levels root

/-! ### Second-stage entries -/

structure SecondStagePte where
  bits : U64
  deriving DecidableEq, Repr

namespace SecondStagePte

def EMPTY : SecondStagePte := ⟨0#64⟩

def page (paddr : U64) (perms : Perm) : SecondStagePte :=
  ⟨(paddr &&& paMask) ||| (perms.bits &&& 0x3#64) ||| 1#64⟩

def table (next : U64) : SecondStagePte :=
  ⟨(next &&& paMask) ||| (Perm.R.bits ||| Perm.W.bits ||| Perm.X.bits) ||| 1#64⟩

def hugePage (paddr : U64) (perms : Perm) : SecondStagePte :=
  ⟨(paddr &&& paMask) ||| (perms.bits &&& 0x3#64) ||| Perm.PAGE_SIZE.bits ||| 1#64⟩

def present (pte : SecondStagePte) : Bool := pte.bits &&& 1#64 != 0#64

def perms (pte : SecondStagePte) : Perm := .fromBitsTruncate pte.bits

def frame (pte : SecondStagePte) : U64 := pte.bits &&& paMask

def withAccessedDirty (pte : SecondStagePte) (accessed dirty : Bool) : SecondStagePte :=
  let v := pte.bits
  let v := if accessed then v ||| Perm.ACCESSED.bits else v
  let v := if dirty then v ||| Perm.DIRTY.bits else v
  ⟨v⟩

end SecondStagePte

/-! ### Mapping requests -/

structure MapRange where
  guestBase : U64
  hostBase : U64
  len : U64
  perms : Perm
  deriving DecidableEq, Repr

namespace MapRange

/-- `self.len.div_ceil(4096)`. -/
def pageCount (m : MapRange) : U64 :=
  if m.len % 4096#64 > 0#64 then m.len / 4096#64 + 1#64 else m.len / 4096#64

/-- The closure of `leaves` at page `i`. -/
def leaf (m : MapRange) (i : U64) : Exec (U64 × U64 × SecondStagePte) := do
  let g ← Exec.add m.guestBase (i <<< 12)
  let h ← Exec.add m.hostBase (i <<< 12)
  return (g, h, SecondStagePte.page h m.perms)

/-- What each call of the `leaves` iterator does, in order. -/
def leaves (m : MapRange) : List (Exec (U64 × U64 × SecondStagePte)) :=
  (List.range m.pageCount.toNat).map fun i => m.leaf (BitVec.ofNat 64 i)

end MapRange

/-! ### First-stage entries -/

/-- The flags are those of the second stage, `X` standing for the user bit. -/
def firstStageLeaf (paddr : U64) (user writable : Bool) : U64 :=
  let v := (paddr &&& paMask) ||| Perm.ACCESSED.bits ||| Perm.DIRTY.bits ||| 1#64
  let v := if writable then v ||| Perm.W.bits else v
  if user then v ||| Perm.X.bits else v

end Iommu.Intel.PageTables
