import Iommu.Bits

/-! Fault recording registers (`intel-iommu/src/fault.rs`).

A record is two qwords. The lower one has the fault info, the upper one all other
fields: the PASID, whose setter sets the flag that it is present too, and two flags
that have no setter. -/
namespace Iommu.Intel
open Lib

/-! ### Codes -/

inductive FaultReason where
  | noFault | rootEntryPresent | contextEntryPresent | contextEntryRsvd | contextEntryTt
  | pagingEntryPresent | pagingEntryRsvd | accessBlocked | pasidDirAccess | pasidDirPresent
  | pasidTableAccess | pasidTablePresent | pasidTableInvalid | irRequestRsvd | irIndexOver
  | irEntryPresent | irRootInvalid | irteRsvd | irRequestCompat | irSourceId | rtaddrInvalidTtm
  | smContextEntryPresent | fsPagingEntryAccess | fsPagingEntryPresent | fsPagingEntryRsvd
  | fsptptrInvalid | fsNonCanonical | fsPrivilege | smWrite | smInterruptAddr
  | other (v : U8)
  deriving DecidableEq, Repr

namespace FaultReason

def fromBits (v : U8) : FaultReason :=
  match v with
  | 0x00#8 => noFault
  | 0x01#8 => rootEntryPresent
  | 0x02#8 => contextEntryPresent
  | 0x03#8 => contextEntryRsvd
  | 0x04#8 => contextEntryTt
  | 0x05#8 => pagingEntryPresent
  | 0x06#8 => pagingEntryRsvd
  | 0x07#8 => accessBlocked
  | 0x50#8 => pasidDirAccess
  | 0x51#8 => pasidDirPresent
  | 0x58#8 => pasidTableAccess
  | 0x59#8 => pasidTablePresent
  | 0x5b#8 => pasidTableInvalid
  | 0x20#8 => irRequestRsvd
  | 0x21#8 => irIndexOver
  | 0x22#8 => irEntryPresent
  | 0x23#8 => irRootInvalid
  | 0x24#8 => irteRsvd
  | 0x25#8 => irRequestCompat
  | 0x26#8 => irSourceId
  | 0x31#8 => rtaddrInvalidTtm
  | 0x47#8 => smContextEntryPresent
  | 0x70#8 => fsPagingEntryAccess
  | 0x71#8 => fsPagingEntryPresent
  | 0x72#8 => fsPagingEntryRsvd
  | 0x73#8 => fsptptrInvalid
  | 0x80#8 => fsNonCanonical
  | 0x81#8 => fsPrivilege
  | 0x85#8 => smWrite
  | 0x87#8 => smInterruptAddr
  | v => other v

def bits : FaultReason → U8
  | noFault => 0x00#8
  | rootEntryPresent => 0x01#8
  | contextEntryPresent => 0x02#8
  | contextEntryRsvd => 0x03#8
  | contextEntryTt => 0x04#8
  | pagingEntryPresent => 0x05#8
  | pagingEntryRsvd => 0x06#8
  | accessBlocked => 0x07#8
  | pasidDirAccess => 0x50#8
  | pasidDirPresent => 0x51#8
  | pasidTableAccess => 0x58#8
  | pasidTablePresent => 0x59#8
  | pasidTableInvalid => 0x5b#8
  | irRequestRsvd => 0x20#8
  | irIndexOver => 0x21#8
  | irEntryPresent => 0x22#8
  | irRootInvalid => 0x23#8
  | irteRsvd => 0x24#8
  | irRequestCompat => 0x25#8
  | irSourceId => 0x26#8
  | rtaddrInvalidTtm => 0x31#8
  | smContextEntryPresent => 0x47#8
  | fsPagingEntryAccess => 0x70#8
  | fsPagingEntryPresent => 0x71#8
  | fsPagingEntryRsvd => 0x72#8
  | fsptptrInvalid => 0x73#8
  | fsNonCanonical => 0x80#8
  | fsPrivilege => 0x81#8
  | smWrite => 0x85#8
  | smInterruptAddr => 0x87#8
  | other v => v

end FaultReason

inductive AddrType where
  | default | translationRequest | translated | reserved
  deriving DecidableEq, Repr

namespace AddrType

def fromBits (v : U8) : AddrType :=
  match v &&& 0x3#8 with
  | 0#8 => default
  | 1#8 => translationRequest
  | 2#8 => translated
  | _ => reserved

def bits : AddrType → U8
  | default => 0#8
  | translationRequest => 1#8
  | translated => 2#8
  | reserved => 3#8

end AddrType

/-! ### Records -/

structure FaultRecord where
  low : U64
  high : U64
  deriving DecidableEq, Repr

namespace FaultRecord

def new : FaultRecord := ⟨0#64, 0#64⟩

def fault (r : FaultRecord) : Bool := r.high &&& (1#64 <<< 63) != 0#64

def withFault (f : Bool) (r : FaultRecord) : FaultRecord :=
  { r with high := (r.high &&& ~~~(1#64 <<< 63)) ||| ((boolAs 8 f).setWidth 64 <<< 63) }

def reason (r : FaultRecord) : FaultReason := .fromBits ((extractBits r.high 39 32).setWidth 8)

def withReason (fr : FaultReason) (r : FaultRecord) : FaultRecord :=
  { r with high := (r.high &&& ~~~(0xff#64 <<< 32)) ||| (fr.bits.setWidth 64 <<< 32) }

def sourceId (r : FaultRecord) : U16 := r.high.setWidth 16

def withSourceId (sid : U16) (r : FaultRecord) : FaultRecord :=
  { r with high := (r.high &&& ~~~0xffff#64) ||| sid.setWidth 64 }

def faultInfo (r : FaultRecord) : U64 := r.low &&& ~~~0xfff#64

def withFaultInfo (fi : U64) (r : FaultRecord) : FaultRecord :=
  { r with low := (r.low &&& 0xfff#64) ||| (fi &&& ~~~0xfff#64) }

def pasidPresent (r : FaultRecord) : Bool := r.high &&& (1#64 <<< 31) != 0#64

def pasid (r : FaultRecord) : U32 := (extractBits r.high 59 40).setWidth 32

/-- It sets the flag of its presence too. -/
def withPasid (pasid : U32) (r : FaultRecord) : FaultRecord :=
  { r with high := (r.high &&& ~~~(0xfffff#64 <<< 40)) ||| ((pasid &&& 0xfffff#32).setWidth 64 <<< 40) |||
      (1#64 <<< 31) }

def privilegeRequested (r : FaultRecord) : Bool := r.high &&& (1#64 <<< 30) != 0#64

def executeRequested (r : FaultRecord) : Bool := r.high &&& (1#64 <<< 29) != 0#64

def addrType (r : FaultRecord) : AddrType := .fromBits ((extractBits r.high 61 60).setWidth 8)

def withAddrType (at' : AddrType) (r : FaultRecord) : FaultRecord :=
  { r with high := (r.high &&& ~~~(0x3#64 <<< 60)) ||| (at'.bits.setWidth 64 <<< 60) }

def words (r : FaultRecord) : Words := ⟨r.low, r.high⟩

def fromWords (low high : U64) : FaultRecord := ⟨low, high⟩

end FaultRecord
end Iommu.Intel
