import Iommu.PageTables.Walk

/-! IOMMU v1 and v2 page tables (`amd-iommu/src/pagetables.rs`). -/
namespace Iommu.Amd.PageTables
open Lib Iommu.PageTables

inductive Format where
  | v1 | v2
  deriving DecidableEq, Repr

/-- The `Perm` flag set, as its bits. The source declares its flags; `fromBitsRetain` and
`contains` are methods that the `bitflags` package generates, as it documents them. -/
structure Perm where
  bits : U64
  deriving DecidableEq, Repr

namespace Perm

def P : Perm := ⟨1#64 <<< 0⟩
def RW : Perm := ⟨1#64 <<< 1⟩
def US : Perm := ⟨1#64 <<< 2⟩
def IR : Perm := ⟨1#64 <<< 4⟩
def IW : Perm := ⟨1#64 <<< 5⟩
/-- The bit that `IW` is in a v1 entry. -/
def ACCESSED : Perm := ⟨1#64 <<< 5⟩
def DIRTY : Perm := ⟨1#64 <<< 6⟩
def PS : Perm := ⟨1#64 <<< 7⟩
def P_RW : Perm := ⟨P.bits ||| RW.bits⟩

/-- Unlike the other crate's walker, this one keeps every bit of the entry. -/
def fromBitsRetain (bits : U64) : Perm := ⟨bits⟩

def contains (p q : Perm) : Bool := p.bits &&& q.bits == q.bits

end Perm

/-- `walk`: only a v2 walk checks the width of the address. -/
def walk (format : Format) (levels : Nat) (root iova : U64) (fetch : U64 → U64) :
    Exec (Except WalkError (WalkResult Perm)) :=
  walkWith Perm.fromBitsRetain iova fetch (format == .v2) levels root

/-! ### Entries -/

def v2Page (paddr : U64) (rw user : Bool) : U64 :=
  let v := (paddr &&& paMask) ||| Perm.P.bits ||| Perm.ACCESSED.bits ||| Perm.DIRTY.bits
  let v := if rw then v ||| Perm.RW.bits else v
  if user then v ||| Perm.US.bits else v

def v2Table (next : U64) : U64 := (next &&& paMask) ||| Perm.P_RW.bits ||| Perm.US.bits ||| Perm.ACCESSED.bits

def v1Page (paddr : U64) (read write : Bool) : U64 :=
  let v := (paddr &&& paMask) ||| Perm.P.bits
  let v := if read then v ||| Perm.IR.bits else v
  if write then v ||| Perm.IW.bits else v

end Iommu.Amd.PageTables
