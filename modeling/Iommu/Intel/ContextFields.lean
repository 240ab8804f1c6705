import Iommu.Intel.Context
import Iommu.Lib.Packed

/-! Context and PASID table entries as packed records.

For each of the three entries: which bits every field with a setter is kept in, that
the getter reads them and the setter writes them, and that the bytes are the qwords.
`entries_independent` is then the library's theorem about packed records. -/
namespace Iommu.Intel.Context
open Lib Lib.Word

/-! ### Codes -/

theorem AddrWidth.fromBits_masked (v : U8) : fromBits (v &&& 0x7#8) = fromBits v := by
  rw [fromBits, fromBits, BitVec.and_assoc, BitVec.and_self]

theorem TransType.fromBits_masked (v : U8) : fromBits (v &&& 0x3#8) = fromBits v := by
  rw [fromBits, fromBits, BitVec.and_assoc, BitVec.and_self]

theorem Pgtt.fromBits_masked (v : U8) : fromBits (v &&& 0x7#8) = fromBits v := by
  rw [fromBits, fromBits, BitVec.and_assoc, BitVec.and_self]

theorem Flpm.fromBits_masked (v : U8) : fromBits (v &&& 0x3#8) = fromBits v := by
  rw [fromBits, fromBits, BitVec.and_assoc, BitVec.and_self]

theorem TransType.code_place (tt : TransType) :
    (tt.bits.setWidth 64 <<< 2) &&& 0xc#64 = Word.place 64 2 (tt.bits.setWidth 2) := by
  cases tt <;> rfl

/-! ### Entries that only name a table -/

/-- A page with the present flag on it. -/
theorem named_page (a : U64) :
    ((a &&& ~~~0xfff#64) ||| 1#64) &&& 1#64 ≠ 0#64 ∧ ((a &&& ~~~0xfff#64) ||| 1#64) &&& 2#64 = 0#64 ∧
      ((a &&& ~~~0xfff#64) ||| 1#64) &&& ~~~0xfff#64 = a &&& ~~~0xfff#64 := by
  have hpresent : ~~~0xfff#64 &&& 1#64 = 0#64 := rfl
  have hdisable : ~~~0xfff#64 &&& 2#64 = 0#64 := rfl
  have hone : 1#64 &&& 2#64 = 0#64 := rfl
  have hflag : 1#64 &&& ~~~0xfff#64 = 0#64 := rfl
  refine ⟨?_, ?_, ?_⟩
  · rw [BitVec.and_or_distrib_right, BitVec.and_assoc, hpresent, BitVec.and_zero, BitVec.zero_or]
    decide
  · rw [BitVec.and_or_distrib_right, BitVec.and_assoc, hdisable, hone, BitVec.and_zero, BitVec.or_zero]
  · rw [BitVec.and_or_distrib_right, BitVec.and_assoc, BitVec.and_self, hflag, BitVec.or_zero]

/-- A new root entry names its table. -/
theorem RootEntry.new_names (a : U64) : (new a).present = true ∧ (new a).contextTable = a &&& ~~~0xfff#64 :=
  ⟨bne_iff_ne.mpr (named_page a).1, (named_page a).2.2⟩

/-- And so does a new entry of a PASID directory. -/
theorem PasidDirEntry.new_names (a : U64) : (new a).present = true ∧ (new a).faultDisable = false ∧
    (new a).pasidTablePtr = a &&& ~~~0xfff#64 :=
  ⟨bne_iff_ne.mpr (named_page a).1, bne_eq_false_iff_eq.mpr (named_page a).2.1, (named_page a).2.2⟩

/-! ### Legacy context entries -/

namespace ContextEntry

inductive Qword where
  | q0 | q1
  deriving DecidableEq

def qword (e : ContextEntry) : Qword → U64
  | .q0 => e.q0
  | .q1 => e.q1

inductive Field where
  | present | faultDisable | translationType | secondStagePtr | addressWidth | domainId
  deriving DecidableEq

namespace Field

def Val : Field → Type
  | translationType => TransType
  | secondStagePtr => U64
  | addressWidth => AddrWidth
  | domainId => U16
  | _ => Bool

def place : (f : Field) → Place 64 Qword f.Val
  | present => .flag .q0 0 (by decide)
  | faultDisable => .flag .q0 1 (by decide)
  | translationType => .coded .q0 2 2 TransType.bits TransType.fromBits (by decide)
  | secondStagePtr => .inPlace .q0 12 52 (by decide)
  | addressWidth => .coded .q1 0 3 AddrWidth.bits AddrWidth.fromBits (by decide)
  | domainId => .whole .q1 8 16 (by decide)

def get : (f : Field) → ContextEntry → f.Val
  | present => ContextEntry.present
  | faultDisable => ContextEntry.faultDisable
  | translationType => ContextEntry.translationType
  | secondStagePtr => ContextEntry.secondStagePtr
  | addressWidth => ContextEntry.addressWidth
  | domainId => ContextEntry.domainId

def set : (f : Field) → f.Val → ContextEntry → ContextEntry
  | present => withPresent
  | faultDisable => withFaultDisable
  | translationType => withTranslationType
  | secondStagePtr => withSecondStagePtr
  | addressWidth => withAddressWidth
  | domainId => withDomainId

/-- A pointer loses its page offset, a code is decoded again. -/
def kept : (f : Field) → f.Val → f.Val
  | translationType => fun (tt : TransType) => TransType.fromBits tt.bits
  | secondStagePtr => fun (addr : U64) => addr &&& ~~~0xfff#64
  | addressWidth => fun (aw : AddrWidth) => AddrWidth.fromBits aw.bits
  | _ => id

theorem place_apart (f g : Field) (h : f ≠ g) : f.place.Apart g.place := by
  revert h
  cases f <;> cases g <;> decide

theorem kept_eq (f : Field) (v : f.Val) : f.place.read (f.place.code v) = f.kept v := by
  cases f with
  | present => exact ofBool_bit v
  | faultDisable => exact ofBool_bit v
  | translationType => exact Place.coded_normal 2 TransType.fromBits_masked _
  | secondStagePtr => exact Place.inPlace_normal 12 52 v
  | addressWidth => exact Place.coded_normal 3 AddrWidth.fromBits_masked _
  | domainId => rfl

theorem get_eq (f : Field) (e : ContextEntry) : f.get e = f.place.get e.qword := by
  cases f with
  | present => exact flag_slice e.q0 0
  | faultDisable => exact flag_slice e.q0 1
  | translationType =>
    exact congrArg TransType.fromBits (setWidth_extractBits 2 e.q0 rfl (by decide) (by decide))
  | secondStagePtr => exact (place_page e.q0).symm
  | addressWidth =>
    exact congrArg AddrWidth.fromBits (setWidth_extractBits 3 e.q1 rfl (by decide) (by decide))
  | domainId => exact extractBits_full e.q1 23 8 16 rfl (by decide) (by decide)

theorem set_word (f : Field) (v : f.Val) (e : ContextEntry) :
    (f.set v e).qword f.place.word = f.place.put v (e.qword f.place.word) := by
  cases f with
  | present => exact put_flag_low e.q0 v
  | faultDisable => exact put_flag e.q0 1 v
  | translationType =>
    have hcode := TransType.code_place v
    exact congrArg ((e.q0 &&& ~~~0xc#64) ||| ·) hcode
  | secondStagePtr => exact put_page e.q0 v
  | addressWidth =>
    have hcode : (AddrWidth.bits v).setWidth 64 &&& mask 64 0 3 = ((AddrWidth.bits v).setWidth 3).setWidth 64 :=
      low_masked 3 _ (by decide)
    have hput := put_low e.q1 ((AddrWidth.bits v).setWidth 3)
    rw [← hcode] at hput
    exact hput
  | domainId => exact put_shift e.q1 8 v

theorem set_other (f : Field) (v : f.Val) (e : ContextEntry) (j : Qword) (h : j ≠ f.place.word) :
    (f.set v e).qword j = e.qword j := by
  cases f <;> cases j <;> first | rfl | exact absurd rfl h

end Field

/-- The entry as a record of its six fields. -/
def record : Packed 64 Qword ContextEntry Field where
  Val := Field.Val
  place := Field.place
  words := qword
  get := Field.get
  set := Field.set
  kept := Field.kept
  apart := Field.place_apart
  kept_eq := Field.kept_eq
  get_eq := Field.get_eq
  set_word := Field.set_word
  set_other := Field.set_other

def qwords (e : ContextEntry) : List U64 := [e.q0, e.q1]

theorem intoBytes_eq (e : ContextEntry) : e.intoBytes = .returns (e.qwords.flatMap u64ToLe) := by
  have hzero : List.replicate 16 0#8 = filling [] 2 := rfl
  have hlen : (filling ([] ++ [e.q0]) 1).length = 16 := rfl
  simp (disch := simp) only [intoBytes, hzero, copyInto_filling, Exec.returns_bind, hlen]
  rw [filling_full]
  rfl

theorem wire : Wire intoBytes fromBytes qwords := by
  refine ⟨intoBytes_eq, fun e => ?_⟩
  have h0 : readQword (e.qwords.flatMap u64ToLe) 0 = .returns e.q0 := readQword_toLe 0 rfl rfl
  have h1 : readQword (e.qwords.flatMap u64ToLe) 8 = .returns e.q1 := readQword_toLe 1 rfl rfl
  simp only [intoBytes_eq, Exec.returns_bind, fromBytes, h0, h1, Exec.pure_eq]

end ContextEntry

/-! ### Scalable context entries -/

namespace ScalableContextEntry

inductive Qword where
  | q0 | q1 | reserved0 | reserved1
  deriving DecidableEq

def qword (e : ScalableContextEntry) : Qword → U64
  | .q0 => e.q0
  | .q1 => e.q1
  | .reserved0 => e.reserved.w0
  | .reserved1 => e.reserved.w1

inductive Field where
  | present | pasidEnable | pageRequestEnable | pasidDirSize | pasidDirPtr | ridPasid | ridPriv
  deriving DecidableEq

namespace Field

def Val : Field → Type
  | pasidDirSize => U8
  | pasidDirPtr => U64
  | ridPasid => U32
  | _ => Bool

def place : (f : Field) → Place 64 Qword f.Val
  | present => .flag .q0 0 (by decide)
  | pasidEnable => .flag .q0 3 (by decide)
  | pageRequestEnable => .flag .q0 4 (by decide)
  | pasidDirSize => .narrow .q0 9 3 8 (by decide)
  | pasidDirPtr => .inPlace .q0 12 52 (by decide)
  | ridPasid => .narrow .q1 0 20 32 (by decide)
  | ridPriv => .flag .q1 20 (by decide)

def get : (f : Field) → ScalableContextEntry → f.Val
  | present => ScalableContextEntry.present
  | pasidEnable => ScalableContextEntry.pasidEnable
  | pageRequestEnable => ScalableContextEntry.pageRequestEnable
  | pasidDirSize => ScalableContextEntry.pasidDirSize
  | pasidDirPtr => ScalableContextEntry.pasidDirPtr
  | ridPasid => ScalableContextEntry.ridPasid
  | ridPriv => ScalableContextEntry.ridPriv

def set : (f : Field) → f.Val → ScalableContextEntry → ScalableContextEntry
  | present => withPresent
  | pasidEnable => withPasidEnable
  | pageRequestEnable => withPageRequestEnable
  | pasidDirSize => withPasidDirSize
  | pasidDirPtr => withPasidDirPtr
  | ridPasid => withRidPasid
  | ridPriv => withRidPriv

/-- A number is masked to its field, a pointer loses its page offset. -/
def kept : (f : Field) → f.Val → f.Val
  | pasidDirSize => fun (order : U8) => order &&& 0x7#8
  | pasidDirPtr => fun (addr : U64) => addr &&& ~~~0xfff#64
  | ridPasid => fun (pasid : U32) => pasid &&& 0xfffff#32
  | _ => id

theorem place_apart (f g : Field) (h : f ≠ g) : f.place.Apart g.place := by
  revert h
  cases f <;> cases g <;> decide

theorem kept_eq (f : Field) (v : f.Val) : f.place.read (f.place.code v) = f.kept v := by
  cases f with
  | pasidDirSize => exact Place.narrow_normal 3 8 v
  | pasidDirPtr => exact Place.inPlace_normal 12 52 v
  | ridPasid => exact Place.narrow_normal 20 32 v
  | _ => exact ofBool_bit v

theorem get_eq (f : Field) (e : ScalableContextEntry) : f.get e = f.place.get e.qword := by
  cases f with
  | present => exact flag_slice e.q0 0
  | pasidEnable => exact flag_slice e.q0 3
  | pageRequestEnable => exact flag_slice e.q0 4
  | pasidDirSize => exact setWidth_extractBits 3 e.q0 rfl (by decide) (by decide)
  | pasidDirPtr => exact (place_page e.q0).symm
  | ridPasid => exact setWidth_extractBits 20 e.q1 rfl (by decide) (by decide)
  | ridPriv => exact flag_slice e.q1 20

theorem set_word (f : Field) (v : f.Val) (e : ScalableContextEntry) :
    (f.set v e).qword f.place.word = f.place.put v (e.qword f.place.word) := by
  cases f with
  | present => exact put_flag_low e.q0 v
  | pasidEnable => exact put_flag e.q0 3 v
  | pageRequestEnable => exact put_flag e.q0 4 v
  | pasidDirSize => exact put_masked e.q0 9 3 v (by decide)
  | pasidDirPtr => exact put_page e.q0 v
  | ridPasid => exact put_masked_low e.q1 20 v (by decide)
  | ridPriv => exact put_flag e.q1 20 v

theorem set_other (f : Field) (v : f.Val) (e : ScalableContextEntry) (j : Qword) (h : j ≠ f.place.word) :
    (f.set v e).qword j = e.qword j := by
  cases f <;> cases j <;> first | rfl | exact absurd rfl h

end Field

/-- The entry as a record of its seven fields. -/
def record : Packed 64 Qword ScalableContextEntry Field where
  Val := Field.Val
  place := Field.place
  words := qword
  get := Field.get
  set := Field.set
  kept := Field.kept
  apart := Field.place_apart
  kept_eq := Field.kept_eq
  get_eq := Field.get_eq
  set_word := Field.set_word
  set_other := Field.set_other

def qwords (e : ScalableContextEntry) : List U64 := [e.q0, e.q1, e.reserved.w0, e.reserved.w1]

theorem intoBytes_eq (e : ScalableContextEntry) : e.intoBytes = .returns (e.qwords.flatMap u64ToLe) := by
  have hzero : List.replicate 32 0#8 = filling [] 4 := rfl
  simp (disch := simp) only [intoBytes, hzero, copyInto_filling, Exec.returns_bind]
  rw [filling_full]
  rfl

theorem wire : Wire intoBytes fromBytes qwords := by
  refine ⟨intoBytes_eq, fun e => ?_⟩
  have h0 : readQword (e.qwords.flatMap u64ToLe) 0 = .returns e.q0 := readQword_toLe 0 rfl rfl
  have h1 : readQword (e.qwords.flatMap u64ToLe) 8 = .returns e.q1 := readQword_toLe 1 rfl rfl
  have h2 : readQword (e.qwords.flatMap u64ToLe) 16 = .returns e.reserved.w0 := readQword_toLe 2 rfl rfl
  have h3 : readQword (e.qwords.flatMap u64ToLe) 24 = .returns e.reserved.w1 := readQword_toLe 3 rfl rfl
  simp only [intoBytes_eq, Exec.returns_bind, fromBytes, h0, h1, h2, h3, Exec.pure_eq]

end ScalableContextEntry

/-! ### PASID table entries -/

namespace PasidTableEntry

inductive Qword where
  | q0 | q1 | q2 | q3 | hpt0 | hpt1 | hpt2 | hpt3
  deriving DecidableEq

def qword (e : PasidTableEntry) : Qword → U64
  | .q0 => e.q0
  | .q1 => e.q1
  | .q2 => e.q2
  | .q3 => e.q3
  | .hpt0 => e.hpt.w0
  | .hpt1 => e.hpt.w1
  | .hpt2 => e.hpt.w2
  | .hpt3 => e.hpt.w3

inductive Field where
  | present | ssAccessedDirty | pgtt | pageTablePtr | domainId | supervisorRequests | flpm | firstLevelPtr
  deriving DecidableEq

namespace Field

def Val : Field → Type
  | pgtt => Pgtt
  | pageTablePtr => U64
  | domainId => U16
  | flpm => Flpm
  | firstLevelPtr => U64
  | _ => Bool

def place : (f : Field) → Place 64 Qword f.Val
  | present => .flag .q0 0 (by decide)
  | ssAccessedDirty => .flag .q0 9 (by decide)
  | pgtt => .coded .q0 6 3 Pgtt.bits Pgtt.fromBits (by decide)
  | pageTablePtr => .inPlace .q0 12 52 (by decide)
  | domainId => .whole .q1 0 16 (by decide)
  | supervisorRequests => .flag .q2 0 (by decide)
  | flpm => .coded .q2 2 2 Flpm.bits Flpm.fromBits (by decide)
  | firstLevelPtr => .inPlace .q2 12 40 (by decide)

def get : (f : Field) → PasidTableEntry → f.Val
  | present => PasidTableEntry.present
  | ssAccessedDirty => PasidTableEntry.ssAccessedDirty
  | pgtt => PasidTableEntry.pgtt
  | pageTablePtr => PasidTableEntry.pageTablePtr
  | domainId => PasidTableEntry.domainId
  | supervisorRequests => PasidTableEntry.supervisorRequests
  | flpm => PasidTableEntry.flpm
  | firstLevelPtr => PasidTableEntry.firstLevelPtr

def set : (f : Field) → f.Val → PasidTableEntry → PasidTableEntry
  | present => withPresent
  | ssAccessedDirty => withSsAccessedDirty
  | pgtt => withPgtt
  | pageTablePtr => withPageTablePtr
  | domainId => withDomainId
  | supervisorRequests => withSupervisorRequests
  | flpm => withFlpm
  | firstLevelPtr => withFirstLevelPtr

/-- The first-level pointer also loses what is above bit 51. -/
def kept : (f : Field) → f.Val → f.Val
  | pgtt => fun (pgtt : Pgtt) => Pgtt.fromBits pgtt.bits
  | pageTablePtr => fun (addr : U64) => addr &&& ~~~0xfff#64
  | flpm => fun (flpm : Flpm) => Flpm.fromBits flpm.bits
  | firstLevelPtr => fun (addr : U64) => addr &&& 0x000ffffffffff000#64
  | _ => id

theorem place_apart (f g : Field) (h : f ≠ g) : f.place.Apart g.place := by
  revert h
  cases f <;> cases g <;> decide

theorem kept_eq (f : Field) (v : f.Val) : f.place.read (f.place.code v) = f.kept v := by
  cases f with
  | pgtt => exact Place.coded_normal 3 Pgtt.fromBits_masked _
  | pageTablePtr => exact Place.inPlace_normal 12 52 v
  | domainId => rfl
  | flpm => exact Place.coded_normal 2 Flpm.fromBits_masked _
  | firstLevelPtr => exact Place.inPlace_normal 12 40 v
  | _ => exact ofBool_bit v

theorem get_eq (f : Field) (e : PasidTableEntry) : f.get e = f.place.get e.qword := by
  cases f with
  | present => exact flag_slice e.q0 0
  | ssAccessedDirty => exact flag_slice e.q0 9
  | pgtt => exact congrArg Pgtt.fromBits (setWidth_extractBits 3 e.q0 rfl (by decide) (by decide))
  | pageTablePtr => exact (place_page e.q0).symm
  | domainId => exact setWidth_eq_slice 16 e.q1
  | supervisorRequests => exact flag_slice e.q2 0
  | flpm => exact congrArg Flpm.fromBits (setWidth_extractBits 2 e.q2 rfl (by decide) (by decide))
  | firstLevelPtr => exact (Place.inPlace_normal 12 40 e.q2).symm

theorem set_word (f : Field) (v : f.Val) (e : PasidTableEntry) :
    (f.set v e).qword f.place.word = f.place.put v (e.qword f.place.word) := by
  cases f with
  | present => exact put_flag_low e.q0 v
  | ssAccessedDirty => exact put_flag e.q0 9 v
  | pgtt => exact put_masked e.q0 6 3 (Pgtt.bits v) (by decide)
  | pageTablePtr => exact put_page e.q0 v
  | domainId => exact put_low e.q1 v
  | supervisorRequests => exact put_flag_low e.q2 v
  | flpm => exact put_masked e.q2 2 2 (Flpm.bits v) (by decide)
  | firstLevelPtr => exact put_in_place 12 40 e.q2 v

theorem set_other (f : Field) (v : f.Val) (e : PasidTableEntry) (j : Qword) (h : j ≠ f.place.word) :
    (f.set v e).qword j = e.qword j := by
  cases f <;> cases j <;> first | rfl | exact absurd rfl h

end Field

/-- The entry as a record of its eight fields. -/
def record : Packed 64 Qword PasidTableEntry Field where
  Val := Field.Val
  place := Field.place
  words := qword
  get := Field.get
  set := Field.set
  kept := Field.kept
  apart := Field.place_apart
  kept_eq := Field.kept_eq
  get_eq := Field.get_eq
  set_word := Field.set_word
  set_other := Field.set_other

def qwords (e : PasidTableEntry) : List U64 := [e.q0, e.q1, e.q2, e.q3] ++ e.hptQwords

theorem intoBytes_eq (e : PasidTableEntry) : e.intoBytes = .returns (e.qwords.flatMap u64ToLe) := by
  have hzero : List.replicate 64 0#8 = filling [] 8 := rfl
  simp (disch := simp) only [intoBytes, hzero, copyInto_filling, Exec.returns_bind, hptQwords,
    List.zipIdx_cons, List.zipIdx_nil, List.foldlM_cons, List.foldlM_nil, Exec.pure_eq]
  rw [filling_full]
  rfl

theorem wire : Wire intoBytes fromBytes qwords := by
  refine ⟨intoBytes_eq, fun e => ?_⟩
  have h0 : readQword (e.qwords.flatMap u64ToLe) 0 = .returns e.q0 := readQword_toLe 0 rfl rfl
  have h1 : readQword (e.qwords.flatMap u64ToLe) 8 = .returns e.q1 := readQword_toLe 1 rfl rfl
  have h2 : readQword (e.qwords.flatMap u64ToLe) 16 = .returns e.q2 := readQword_toLe 2 rfl rfl
  have h3 : readQword (e.qwords.flatMap u64ToLe) 24 = .returns e.q3 := readQword_toLe 3 rfl rfl
  have h4 : readQword (e.qwords.flatMap u64ToLe) 32 = .returns e.hpt.w0 := readQword_toLe 4 rfl rfl
  have h5 : readQword (e.qwords.flatMap u64ToLe) 40 = .returns e.hpt.w1 := readQword_toLe 5 rfl rfl
  have h6 : readQword (e.qwords.flatMap u64ToLe) 48 = .returns e.hpt.w2 := readQword_toLe 6 rfl rfl
  have h7 : readQword (e.qwords.flatMap u64ToLe) 56 = .returns e.hpt.w3 := readQword_toLe 7 rfl rfl
  simp only [intoBytes_eq, Exec.returns_bind, fromBytes, h0, h1, h2, h3, h4, h5, h6, h7, Exec.pure_eq]

end PasidTableEntry

/-- **The three entries are records of independent fields, and are their qwords in memory.** -/
theorem entries_independent :
    (ContextEntry.record.Independent ∧
      Wire ContextEntry.intoBytes ContextEntry.fromBytes ContextEntry.qwords) ∧
    (ScalableContextEntry.record.Independent ∧
      Wire ScalableContextEntry.intoBytes ScalableContextEntry.fromBytes ScalableContextEntry.qwords) ∧
    (PasidTableEntry.record.Independent ∧
      Wire PasidTableEntry.intoBytes PasidTableEntry.fromBytes PasidTableEntry.qwords) :=
  ⟨⟨ContextEntry.record.independent, ContextEntry.wire⟩,
    ⟨ScalableContextEntry.record.independent, ScalableContextEntry.wire⟩,
    ⟨PasidTableEntry.record.independent, PasidTableEntry.wire⟩⟩

end Iommu.Intel.Context
