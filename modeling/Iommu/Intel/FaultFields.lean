import Iommu.Intel.Fault
import Iommu.Lib.Spread

/-! Fault records as spread records.

All fields but the fault info are in the upper qword, and none of them meets another.
The flag that a PASID is present is one of the chunks of the PASID, a bit that its
setter sets whatever the value; the two flags without a setter are in no chunk. -/
namespace Iommu.Intel
open Lib Lib.Word

/-! ### Codes -/

/-- A code fills its field. -/
theorem FaultReason.fromBits_code (fr : FaultReason) :
    fromBits ((fr.bits.setWidth 8).setWidth 8) = fromBits fr.bits := by
  rw [BitVec.setWidth_eq, BitVec.setWidth_eq]

theorem AddrType.bits_wide (at' : AddrType) : at'.bits.setWidth 64 = (at'.bits.setWidth 2).setWidth 64 := by
  cases at' <;> rfl

theorem AddrType.fromBits_code (at' : AddrType) : fromBits ((at'.bits.setWidth 2).setWidth 8) = at' := by
  cases at' <;> rfl

namespace FaultRecord

/-! ### Qwords -/

inductive Qword where
  | low | high
  deriving DecidableEq

def qword (r : FaultRecord) : Qword → U64
  | .low => r.low
  | .high => r.high

theorem qword_low (r : FaultRecord) {x y : U64} (h : x = y) :
    qword { r with low := x } = Function.update r.qword .low y := by
  subst h
  funext j
  cases j <;> rfl

theorem qword_high (r : FaultRecord) {x y : U64} (h : x = y) :
    qword { r with high := x } = Function.update r.qword .high y := by
  subst h
  funext j
  cases j <;> rfl

/-! ### Fields -/

inductive Field where
  | fault | reason | sourceId | faultInfo | pasid | addrType
  deriving DecidableEq

namespace Field

def Val : Field → Type
  | fault => Bool
  | reason => FaultReason
  | sourceId => U16
  | faultInfo => U64
  | pasid => U32
  | addrType => AddrType

/-- The value and the flag of its presence. -/
def pasidChunks : List (Chunk Qword U32) := [.part .high 40 20 0, .ones .high 31]

def chunks : (f : Field) → List (Chunk Qword f.Val)
  | fault => [.flag .high 63]
  | reason => [.coded .high 32 8 FaultReason.bits]
  | sourceId => [.whole .high 0 16]
  | faultInfo => [.part .low 12 52 12]
  | pasid => pasidChunks
  | addrType => [.coded .high 60 2 AddrType.bits]

def get : (f : Field) → FaultRecord → f.Val
  | fault => FaultRecord.fault
  | reason => FaultRecord.reason
  | sourceId => FaultRecord.sourceId
  | faultInfo => FaultRecord.faultInfo
  | pasid => FaultRecord.pasid
  | addrType => FaultRecord.addrType

def set : (f : Field) → f.Val → FaultRecord → FaultRecord
  | fault => withFault
  | reason => withReason
  | sourceId => withSourceId
  | faultInfo => withFaultInfo
  | pasid => withPasid
  | addrType => withAddrType

/-- A reason is decoded again, the info loses its low twelve bits and a PASID all above
its twentieth. -/
def kept : (f : Field) → f.Val → f.Val
  | reason => fun (fr : FaultReason) => FaultReason.fromBits fr.bits
  | faultInfo => fun (fi : U64) => fi &&& ~~~0xfff#64
  | pasid => fun (pasid : U32) => pasid &&& 0xfffff#32
  | _ => id

/-! ### The PASID -/

theorem pasid_eq (r : FaultRecord) : r.pasid = (r.high.extractLsb' 40 20).setWidth 32 :=
  setWidth_extractBits 20 r.high rfl (by decide) (by decide)

theorem qword_withPasid (pasid : U32) (r : FaultRecord) :
    (withPasid pasid r).qword = Chunk.writes pasidChunks pasid r.qword := by
  have hvalue := put_masked r.high 40 20 pasid (by decide)
  have hhigh : (withPasid pasid r).high = put 31 1#1 (put 40 (pasid.extractLsb' 0 20) r.high) := by
    rw [← setWidth_eq_slice, ← hvalue]
    exact put_ones _ 31 1
  funext j
  cases j with
  | low => rfl
  | high => exact hhigh

theorem pasid_field : Chunk.Field pasidChunks qword FaultRecord.pasid withPasid
    fun pasid => pasid &&& 0xfffff#32 where
  get_set := fun pasid r => by
    have happart : pasidChunks.Pairwise Chunk.Apart := of_decide_eq_true rfl
    have hslice := Chunk.slice_writes happart pasid r.qword (c := .part .high 40 20 0) List.mem_cons_self (by decide)
    rw [← qword_withPasid] at hslice
    have hread : (withPasid pasid r).high.extractLsb' 40 20 = pasid.extractLsb' 0 20 := hslice
    have hmask : 0xfffff#32 = mask 32 0 20 := rfl
    rw [pasid_eq, hread, hmask, and_mask_zero, setWidth_eq_slice 20 pasid]
  get_congr := fun r r' h => by
    have hvalue : r.high.extractLsb' 40 20 = r'.high.extractLsb' 40 20 := h _ List.mem_cons_self
    rw [pasid_eq, pasid_eq, hvalue]
  words_set := qword_withPasid

/-! ### The record -/

theorem field (f : Field) : Chunk.Field f.chunks qword f.get f.set f.kept := by
  cases f with
  | fault =>
    exact Chunk.flag_field (by decide) (fun r => flag_slice r.high 63) fun v r => qword_high r (put_flag r.high 63 v)
  | reason =>
    refine Chunk.coded_field (by decide) (fun r => ?_) (fun fr r => qword_high r ?_) FaultReason.fromBits_code
    · exact congrArg FaultReason.fromBits (setWidth_extractBits 8 r.high rfl (by decide) (by decide))
    · exact put_code r.high 32 8 (FaultReason.bits fr) (by rw [BitVec.setWidth_eq])
  | sourceId =>
    exact Chunk.whole_field (by decide) (fun r => setWidth_eq_slice 16 r.high) fun v r =>
      qword_high r (put_low r.high v)
  | faultInfo =>
    exact Chunk.field (place 64 12) (by decide) (fun r => (place_page r.low).symm)
      (fun v r => qword_low r (put_page r.low v)) place_page
  | pasid => exact pasid_field
  | addrType =>
    refine Chunk.coded_field (by decide) (fun r => ?_) (fun at' r => qword_high r ?_) AddrType.fromBits_code
    · exact congrArg AddrType.fromBits (setWidth_extractBits 2 r.high rfl (by decide) (by decide))
    · exact put_code r.high 60 2 (AddrType.bits at') (AddrType.bits_wide at')

end Field

def record : Spread 64 Qword FaultRecord Field where
  Val := Field.Val
  chunks := Field.chunks
  words := qword
  get := Field.get
  set := Field.set
  kept := Field.kept
  field := Field.field

theorem apart : record.Apart := by
  intro f g
  cases f <;> cases g <;> decide

/-! ### Flags without a setter of their own -/

/-- A bit of the upper qword that no call writes. -/
theorem high_run {i : Nat} (hi : i < 64) (r : FaultRecord) (cs : List record.slots.Call)
    (h : ∀ call ∈ cs, ∀ c ∈ record.chunks call.1, decide (c.Covers .high i) = false) :
    (record.slots.run r cs).high.getLsbD i = r.high.getLsbD i :=
  record.getLsbD_run (j := .high) hi r cs (fun call hcall c hc => Chunk.keeps_of_out (h call hcall c hc)) rfl

/-- No field has a chunk over the flags of what was requested. -/
theorem no_setter (f : Field) : (∀ c ∈ record.chunks f, decide (c.Covers .high 30) = false) ∧
    ∀ c ∈ record.chunks f, decide (c.Covers .high 29) = false := by
  cases f <;> decide

theorem pasidPresent_eq (r : FaultRecord) : r.pasidPresent = r.high.getLsbD 31 := flag_eq r.high 31

theorem pasidPresent_withPasid (pasid : U32) (r : FaultRecord) : (withPasid pasid r).pasidPresent = true := by
  have hhigh := congrFun (Field.qword_withPasid pasid r) .high
  have hset : (put 31 1#1 (put 40 (pasid.extractLsb' 0 20) r.high)).getLsbD 31 = true := by
    rw [getLsbD_put 31 31 _ _ (by decide), if_pos (by decide)]
    rfl
  rw [pasidPresent_eq]
  exact (congrArg (fun x : U64 => x.getLsbD 31) hhigh).trans hset

/-- Only the setter of the PASID writes the flag. -/
theorem pasidPresent_call (r : FaultRecord) (call : record.slots.Call) :
    (record.slots.call r call).pasidPresent = true ↔ r.pasidPresent = true ∨ call.1 = .pasid := by
  obtain ⟨f, v⟩ := call
  by_cases hf : f = .pasid
  · subst hf
    exact iff_of_true (pasidPresent_withPasid v r) (.inr rfl)
  · have hout : ∀ c ∈ record.chunks f, decide (c.Covers .high 31) = false := by
      cases f with
      | pasid => exact absurd rfl hf
      | _ => exact List.forall_mem_singleton.mpr rfl
    have hsame := high_run (by decide) r [⟨f, v⟩] (List.forall_mem_singleton.mpr hout)
    rw [pasidPresent_eq, pasidPresent_eq]
    simp only [hf, or_false]
    exact iff_of_eq (congrArg (· = true) hsame)

theorem pasidPresent_run (r : FaultRecord) (cs : List record.slots.Call) :
    (record.slots.run r cs).pasidPresent = true ↔ r.pasidPresent = true ∨ ∃ call ∈ cs, call.1 = .pasid := by
  induction cs generalizing r with
  | nil => simp
  | cons call cs ih => rw [Slots.run_cons, ih, pasidPresent_call, List.exists_mem_cons_iff, or_assoc]

/-- What a record reports of the calls that it was built by, from the start `r`. -/
structure Reported (r : FaultRecord) (cs : List record.slots.Call) (back : FaultRecord) : Prop where
  unset : ∀ f : Field, record.slots.Unset f cs → f.get back = f.get r
  last : ∀ (f : Field) v before after, cs = before ++ ⟨f, v⟩ :: after → record.slots.Unset f after →
    f.get back = f.kept v
  pasidPresent : back.pasidPresent = true ↔ r.pasidPresent = true ∨ ∃ call ∈ cs, call.1 = .pasid
  privilegeRequested : back.privilegeRequested = r.privilegeRequested
  executeRequested : back.executeRequested = r.executeRequested

/-- **A fault record reports what it was given**, in any order and through its words. -/
theorem words_reported (r : FaultRecord) (cs : List record.slots.Call) :
    Reported r cs (fromWords ((record.slots.run r cs).words.w0) ((record.slots.run r cs).words.w1)) where
  unset := (record.faithful apart r cs).unset
  last := (record.faithful apart r cs).last
  pasidPresent := pasidPresent_run r cs
  privilegeRequested := by
    have hsame := high_run (by decide) r cs fun call _ => (no_setter call.1).1
    exact (flag_eq _ 30).trans (hsame.trans (flag_eq r.high 30).symm)
  executeRequested := by
    have hsame := high_run (by decide) r cs fun call _ => (no_setter call.1).2
    exact (flag_eq _ 29).trans (hsame.trans (flag_eq r.high 29).symm)

end FaultRecord
end Iommu.Intel
