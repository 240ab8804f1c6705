import Iommu.Intel.Qi
import Iommu.Lib.Codec

/-! The codec of the descriptors.

Each shape has a layout in two words. What its encoder writes and what its decoder
reads are both that layout, so the 128-bit descriptors form one codec; the 256-bit
one has an encoder only, and a flag of its lies on the type. -/
namespace Iommu.Intel.Qi
open Lib Lib.Word

/-! ### Fields of an encoder and of a decoder -/

namespace Granularity

def code (g : Granularity) : BitVec 2 := g.bits.setWidth 2

theorem place_bits (g : Granularity) (lo : Nat) : place 64 lo g.code = g.bits.setWidth 64 <<< lo := by
  cases g <;> rfl

theorem fromBits_iff (x : BitVec 2) (g : Granularity) : fromBits (x.setWidth 8) = g ↔ x = g.code := by
  revert x
  cases g <;> decide

theorem decode_iff (w : U64) (g : Granularity) :
    fromBits ((extractBits w 5 4).setWidth 8) = g ↔ w.extractLsb' 4 2 = g.code := by
  rw [setWidth_extractBits 2 w rfl (by decide) (by decide), fromBits_iff]

end Granularity

theorem place_flag (b : Bool) (lo : Nat) :
    place 64 lo (BitVec.ofBool b) = (boolAs 8 b).setWidth 64 <<< lo := by
  cases b <;> rfl

theorem place_status (x : U64) : place 64 3 (x.extractLsb' 3 61) = x &&& ~~~0x7#64 := by
  have hmask : ~~~0x7#64 = mask 64 3 61 := rfl
  rw [hmask, and_mask]

theorem status_iff (w x : U64) :
    w &&& ~~~0x7#64 = x ↔ x.toNat % 8 = 0 ∧ w.extractLsb' 3 61 = x.extractLsb' 3 61 := by
  rw [← place_status]
  exact place_eq_iff 3 _ x rfl

theorem low_flag_iff (w : U64) (b : Bool) :
    (w &&& 1#64 != 0#64) = b ↔ w.extractLsb' 0 1 = BitVec.ofBool b := by
  rw [← extractBits_flag w (by decide), extractBits, BitVec.ushiftRight_zero]
  rfl

/-! ### The type -/

/-- The two halves of a type code in word 0. -/
def typeLayout (t : QiType) : List Field := [⟨0, 4, t.value.extractLsb' 0 4⟩, ⟨9, 3, t.value.extractLsb' 4 3⟩]

theorem typeBits_eq (t : QiType) : typeBits t.value = pack 64 (typeLayout t) := by
  have hbits : ∀ v : U8, typeBits v = pack 64 (typeLayout ⟨v⟩) := by decide
  exact hbits t.value

theorem halves_iff (a : BitVec 3) (b : BitVec 4) (v : U8) :
    a ++ b = v.extractLsb' 0 7 ↔ b = v.extractLsb' 0 4 ∧ a = v.extractLsb' 4 3 := by
  constructor
  · intro h
    have hlow := congrArg (fun x : BitVec 7 => x.extractLsb' 0 4) h
    have hhigh := congrArg (fun x : BitVec 7 => x.extractLsb' 4 3) h
    simp (disch := decide) only [BitVec.extractLsb'_append_eq_left, BitVec.extractLsb'_append_eq_right,
      BitVec.extractLsb'_extractLsb'_of_le] at hlow hhigh
    exact ⟨hlow, hhigh⟩
  · intro ⟨hlow, hhigh⟩
    rw [hlow, hhigh]
    exact BitVec.extractLsb'_append_extractLsb'_eq_extractLsb' rfl

/-- A word has a type when it holds the two halves. -/
theorem fromWord0_iff (w : U64) (t : QiType) :
    QiType.fromWord0 w = t ↔ t.value.toNat < 2 ^ 7 ∧ Holds (typeLayout t) w := by
  have hjoin : ∀ (a : BitVec 3) (b : BitVec 4),
      ((a.setWidth 64 <<< 4) ||| b.setWidth 64).setWidth 8 = (a ++ b).setWidth 8 := by
    decide
  have hhigh : extractBits w 11 9 = (w.extractLsb' 9 3).setWidth 64 :=
    extractBits_eq w (by decide) (by decide)
  have hlow : extractBits w 3 0 = (w.extractLsb' 0 4).setWidth 64 :=
    extractBits_eq w (by decide) (by decide)
  cases t with
  | mk v =>
    rw [QiType.fromWord0, hhigh, hlow, QiType.mk.injEq, hjoin, setWidth_eq_iff _ v (by decide), halves_iff]
    simp only [typeLayout, holds_cons, holds_nil, and_true]

/-- A word packed from a type and fields apart from it carries that type. -/
theorem fromWord0_pack (t : QiType) (L : List Field) (ht : t.value.toNat < 2 ^ 7)
    (hL : Fitting 64 (extents (typeLayout t ++ L))) :
    QiType.fromWord0 (pack 64 (typeLayout t ++ L)) = t :=
  (fromWord0_iff _ t).mpr ⟨ht, ((holds_append _ _ _).mp (holds_pack hL)).1⟩

/-! ### The shapes -/

namespace QiCc

def layout (d : QiCc) : Words.At → List Field
  | .w0 => [⟨4, 2, d.granularity.code⟩, ⟨16, 16, d.did⟩, ⟨32, 16, d.sid⟩, ⟨48, 2, d.fm.extractLsb' 0 2⟩]
  | .w1 => []

theorem toWords_eq (d : QiCc) : d.toWords =
    ⟨typeBits QiType.contextCache.value ||| pack 64 (d.layout .w0), pack 64 (d.layout .w1)⟩ := by
  simp only [layout, pack_cons, pack_nil, Granularity.place_bits, ← place_and_mask d.fm 48 (show 2 ≤ 8 by decide),
    BitVec.or_zero, ← BitVec.or_assoc]
  rfl

theorem fromWords_iff (d : QiCc) (w0 w1 : U64) : .fromWords w0 w1 = d ↔
    d.fm.toNat < 2 ^ 2 ∧ Holds (d.layout .w0) w0 ∧ Holds (d.layout .w1) w1 := by
  cases d with
  | mk g did sid fm =>
    simp (disch := decide) only [QiCc.fromWords, QiCc.mk.injEq, layout, holds_cons, holds_nil,
      and_true, Granularity.decode_iff, extractBits_full_iff, extractBits_narrow_iff 2]
    simp only [and_left_comm]

end QiCc

namespace QiIotlb

def layout (d : QiIotlb) : Words.At → List Field
  | .w0 => [⟨4, 2, d.granularity.code⟩, ⟨16, 16, d.did⟩]
  | .w1 => [⟨12, 52, d.addr.extractLsb' 12 52⟩, ⟨0, 6, d.am.extractLsb' 0 6⟩]

theorem toWords_eq (d : QiIotlb) : d.toWords =
    ⟨typeBits QiType.iotlb.value ||| pack 64 (d.layout .w0), pack 64 (d.layout .w1)⟩ := by
  simp only [layout, pack_cons, pack_nil, Granularity.place_bits, place_page, ← place_and_mask d.am 0 (show 6 ≤ 8 by decide),
    place_zero, BitVec.or_zero, ← BitVec.or_assoc]
  rfl

theorem fromWords_iff (d : QiIotlb) (w0 w1 : U64) : .fromWords w0 w1 = d ↔
    (d.addr.toNat % 4096 = 0 ∧ d.am.toNat < 2 ^ 6) ∧ Holds (d.layout .w0) w0 ∧ Holds (d.layout .w1) w1 := by
  cases d with
  | mk g did addr am =>
    simp (disch := decide) only [QiIotlb.fromWords, QiIotlb.mk.injEq, layout, holds_cons, holds_nil,
      and_true, Granularity.decode_iff, page_iff, extractBits_full_iff, extractBits_narrow_iff 6]
    simp only [and_assoc, and_left_comm]

end QiIotlb

namespace QiDevTlb

def layout (d : QiDevTlb) : Words.At → List Field
  | .w0 => [⟨32, 16, d.sid⟩]
  | .w1 => [⟨12, 52, d.addr.extractLsb' 12 52⟩, ⟨0, 1, BitVec.ofBool d.oversized⟩]

theorem toWords_eq (d : QiDevTlb) : d.toWords =
    ⟨typeBits QiType.deviceTlb.value ||| pack 64 (d.layout .w0), pack 64 (d.layout .w1)⟩ := by
  simp only [layout, pack_cons, pack_nil, place_page, place_flag, BitVec.shiftLeft_zero, BitVec.or_zero]
  rfl

theorem fromWords_iff (d : QiDevTlb) (w0 w1 : U64) : .fromWords w0 w1 = d ↔
    d.addr.toNat % 4096 = 0 ∧ Holds (d.layout .w0) w0 ∧ Holds (d.layout .w1) w1 := by
  cases d with
  | mk sid addr oversized =>
    simp (disch := decide) only [QiDevTlb.fromWords, QiDevTlb.mk.injEq, layout, holds_cons, holds_nil,
      and_true, page_iff, low_flag_iff, extractBits_full_iff]
    simp only [and_assoc, and_left_comm]

end QiDevTlb

namespace QiIec

def layout (d : QiIec) : Words.At → List Field
  | .w0 => [⟨4, 1, BitVec.ofBool d.global⟩, ⟨27, 5, d.indexMask.extractLsb' 0 5⟩, ⟨32, 16, d.startIndex⟩]
  | .w1 => []

theorem toWords_eq (d : QiIec) : d.toWords =
    ⟨typeBits QiType.interruptEntryCache.value ||| pack 64 (d.layout .w0), pack 64 (d.layout .w1)⟩ := by
  simp only [layout, pack_cons, pack_nil, place_flag, ← place_and_mask d.indexMask 27 (show 5 ≤ 8 by decide),
    BitVec.or_zero, ← BitVec.or_assoc]
  rfl

theorem fromWords_iff (d : QiIec) (w0 w1 : U64) : .fromWords w0 w1 = d ↔
    d.indexMask.toNat < 2 ^ 5 ∧ Holds (d.layout .w0) w0 ∧ Holds (d.layout .w1) w1 := by
  cases d with
  | mk global startIndex indexMask =>
    simp (disch := decide) only [QiIec.fromWords, QiIec.mk.injEq, layout, holds_cons, holds_nil,
      and_true, extractBits_flag, extractBits_full_iff, extractBits_narrow_iff 5]
    simp only [and_assoc, and_left_comm, and_comm]

end QiIec

namespace QiWait

def layout (d : QiWait) : Words.At → List Field
  | .w0 => [⟨4, 1, BitVec.ofBool d.interruptFlag⟩, ⟨5, 1, BitVec.ofBool d.statusWrite⟩,
      ⟨6, 1, BitVec.ofBool d.fence⟩, ⟨32, 32, d.statusData⟩]
  | .w1 => [⟨3, 61, d.statusAddr.extractLsb' 3 61⟩]

theorem toWords_eq (d : QiWait) : d.toWords =
    ⟨typeBits QiType.wait.value ||| pack 64 (d.layout .w0), pack 64 (d.layout .w1)⟩ := by
  simp only [layout, pack_cons, pack_nil, place_flag, place_status, BitVec.or_zero, ← BitVec.or_assoc]
  rfl

theorem fromWords_iff (d : QiWait) (w0 w1 : U64) : .fromWords w0 w1 = d ↔
    d.statusAddr.toNat % 8 = 0 ∧ Holds (d.layout .w0) w0 ∧ Holds (d.layout .w1) w1 := by
  cases d with
  | mk interruptFlag statusWrite fence statusData statusAddr =>
    simp (disch := decide) only [QiWait.fromWords, QiWait.mk.injEq, layout, holds_cons, holds_nil,
      and_true, extractBits_flag, status_iff, extractBits_full_iff]
    simp only [and_assoc, and_left_comm]

end QiWait

namespace QiPc

def layout (d : QiPc) : Words.At → List Field
  | .w0 => [⟨4, 2, d.granularity.code⟩, ⟨16, 16, d.did⟩, ⟨32, 32, d.pasid⟩]
  | .w1 => []

theorem toWords_eq (d : QiPc) : d.toWords =
    ⟨typeBits QiType.pasidCache.value ||| pack 64 (d.layout .w0), pack 64 (d.layout .w1)⟩ := by
  simp only [layout, pack_cons, pack_nil, Granularity.place_bits, BitVec.or_zero, ← BitVec.or_assoc]
  rfl

theorem fromWords_iff (d : QiPc) (w0 w1 : U64) : .fromWords w0 w1 = d ↔
    Holds (d.layout .w0) w0 ∧ Holds (d.layout .w1) w1 := by
  cases d with
  | mk g did pasid =>
    simp (disch := decide) only [QiPc.fromWords, QiPc.mk.injEq, layout, holds_cons, holds_nil,
      and_true, Granularity.decode_iff, extractBits_full_iff]

end QiPc

namespace QiPiotlb

def layout (d : QiPiotlb) : Words.At → List Field
  | .w0 => [⟨4, 2, d.granularity.code⟩, ⟨16, 16, d.did⟩, ⟨32, 32, d.pasid⟩]
  | .w1 => [⟨12, 52, d.addr.extractLsb' 12 52⟩, ⟨0, 6, d.am.extractLsb' 0 6⟩]

theorem toWords_eq (d : QiPiotlb) : d.toWords =
    ⟨typeBits QiType.pasidIotlb.value ||| pack 64 (d.layout .w0), pack 64 (d.layout .w1)⟩ := by
  simp only [layout, pack_cons, pack_nil, Granularity.place_bits, place_page, ← place_and_mask d.am 0 (show 6 ≤ 8 by decide),
    place_zero, BitVec.or_zero, ← BitVec.or_assoc]
  rfl

theorem fromWords_iff (d : QiPiotlb) (w0 w1 : U64) : .fromWords w0 w1 = d ↔
    (d.addr.toNat % 4096 = 0 ∧ d.am.toNat < 2 ^ 6) ∧ Holds (d.layout .w0) w0 ∧ Holds (d.layout .w1) w1 := by
  cases d with
  | mk g did pasid addr am =>
    simp (disch := decide) only [QiPiotlb.fromWords, QiPiotlb.mk.injEq, layout, holds_cons, holds_nil,
      and_true, Granularity.decode_iff, page_iff, extractBits_full_iff, extractBits_narrow_iff 6]
    simp only [and_assoc, and_left_comm]

end QiPiotlb

/-! ### The descriptor of any shape -/

namespace QiDesc

/-- A 128-bit descriptor whose fields fit their widths and whose addresses are aligned. -/
def Fits : QiDesc → Prop
  | contextCache d => d.fm.toNat < 2 ^ 2
  | iotlb d => d.addr.toNat % 4096 = 0 ∧ d.am.toNat < 2 ^ 6
  | devTlb d => d.addr.toNat % 4096 = 0
  | iec d => d.indexMask.toNat < 2 ^ 5
  | wait d => d.statusAddr.toNat % 8 = 0
  | pasidCache _ => True
  | pasidIotlb d => d.addr.toNat % 4096 = 0 ∧ d.am.toNat < 2 ^ 6
  | pasidDevTlb _ => False

/-- What each shape writes and reads beside the type. -/
def shapeLayout : QiDesc → Words.At → List Field
  | contextCache d => d.layout
  | iotlb d => d.layout
  | devTlb d => d.layout
  | iec d => d.layout
  | wait d => d.layout
  | pasidCache d => d.layout
  | pasidIotlb d => d.layout
  | pasidDevTlb _ => fun _ => []

def layout (d : QiDesc) : Words.At → List Field
  | .w0 => typeLayout d.ty ++ d.shapeLayout .w0
  | .w1 => d.shapeLayout .w1

/-- The words are decoded to `d` by the decoder of its shape. -/
def Decodes (w0 w1 : U64) : QiDesc → Prop
  | contextCache d => .fromWords w0 w1 = d
  | iotlb d => .fromWords w0 w1 = d
  | devTlb d => .fromWords w0 w1 = d
  | iec d => .fromWords w0 w1 = d
  | wait d => .fromWords w0 w1 = d
  | pasidCache d => .fromWords w0 w1 = d
  | pasidIotlb d => .fromWords w0 w1 = d
  | pasidDevTlb _ => False

/-- The type picks the decoder. -/
theorem fromWords_eq_iff (w0 w1 : U64) (d : QiDesc) :
    fromWords w0 w1 = some d ↔ QiType.fromWord0 w0 = d.ty ∧ d.Decodes w0 w1 := by
  constructor
  · intro h
    rw [fromWords] at h
    split at h
    case h_8 => exact absurd h (by simp)
    all_goals
      rename_i ht
      obtain rfl := Option.some.inj h
      exact ⟨ht, rfl⟩
  · intro ⟨ht, hd⟩
    rw [fromWords, ht]
    cases d with
    | pasidDevTlb d => exact hd.elim
    | _ =>
      cases hd
      rfl

theorem decodes_iff (w0 w1 : U64) (d : QiDesc) :
    d.Decodes w0 w1 ↔ d.Fits ∧ Holds (d.shapeLayout .w0) w0 ∧ Holds (d.shapeLayout .w1) w1 := by
  cases d with
  | contextCache d => exact d.fromWords_iff w0 w1
  | iotlb d => exact d.fromWords_iff w0 w1
  | devTlb d => exact d.fromWords_iff w0 w1
  | iec d => exact d.fromWords_iff w0 w1
  | wait d => exact d.fromWords_iff w0 w1
  | pasidCache d => exact (d.fromWords_iff w0 w1).trans (iff_of_eq (true_and _)).symm
  | pasidIotlb d => exact d.fromWords_iff w0 w1
  | pasidDevTlb d => simp only [Decodes, Fits, false_and]

theorem ty_lt (d : QiDesc) : d.ty.value.toNat < 2 ^ 7 := by
  cases d <;> exact of_decide_eq_true rfl

theorem fromWords_iff (w0 w1 : U64) (d : QiDesc) :
    fromWords w0 w1 = some d ↔ d.Fits ∧ Holds (d.layout .w0) w0 ∧ Holds (d.layout .w1) w1 := by
  simp only [fromWords_eq_iff, fromWord0_iff, decodes_iff, ty_lt, true_and, layout, holds_append]
  simp only [and_assoc, and_left_comm]

/-- A 128-bit encoder writes its layout. -/
theorem words_eq (d : QiDesc) (h : ∀ p, d ≠ pasidDevTlb p) :
    d.words = ⟨pack 64 (d.layout .w0), pack 64 (d.layout .w1)⟩ := by
  simp only [layout, pack_append, ← typeBits_eq]
  cases d with
  | pasidDevTlb p => exact absurd rfl (h p)
  | contextCache d => exact d.toWords_eq
  | iotlb d => exact d.toWords_eq
  | devTlb d => exact d.toWords_eq
  | iec d => exact d.toWords_eq
  | wait d => exact d.toWords_eq
  | pasidCache d => exact d.toWords_eq
  | pasidIotlb d => exact d.toWords_eq

theorem layout_fitting (d : QiDesc) (j : Words.At) : Fitting 64 (extents (d.layout j)) := by
  cases d <;> cases j <;> exact of_decide_eq_true rfl

/-- The 128-bit descriptors as a codec. -/
def codec : Codec 64 Words.At QiDesc where
  decode ws := fromWords (ws .w0) (ws .w1)
  layout := layout
  Fits := Fits
  fitting := layout_fitting
  decode_iff ws d := by
    rw [fromWords_iff]
    exact and_congr_right' ⟨fun ⟨h0, h1⟩ j => by cases j <;> assumption, fun h => ⟨h .w0, h .w1⟩⟩

end QiDesc

/-! ### The type of a queue slot -/

/-- The flag of the 256-bit descriptor is bit 0 of its type. -/
theorem typeBits_flag (b : Bool) : typeBits QiType.pasidDeviceTlb.value ||| (boolAs 8 b).setWidth 64 =
    typeBits (if b then QiType.pageGroupResponse else .pasidDeviceTlb).value := by
  cases b <;> decide

theorem QiDevPiotlb.readType (d : QiDevPiotlb) : QiType.fromWord0 d.toWords4.w0 =
    if d.global then .pageGroupResponse else .pasidDeviceTlb := by
  have hw : d.toWords4.w0 = pack 64 (typeLayout (if d.global then .pageGroupResponse else .pasidDeviceTlb) ++
      [⟨32, 32, d.pasid⟩]) := by
    simp only [pack_append, ← typeBits_eq, ← typeBits_flag, pack_cons, pack_nil, BitVec.or_zero]
    rfl
  rw [hw]
  exact fromWord0_pack _ _ (by split <;> decide) (of_decide_eq_true rfl)

namespace QiDesc

/-- **Which descriptors carry their own type** in a 256-bit slot: all but a global
PASID-based device-TLB invalidation, which carries the type after its own. -/
theorem words4_type_iff (d : QiDesc) :
    QiType.fromWord0 d.words4.w0 = d.ty ↔ ∀ p, d = .pasidDevTlb p → p.global = false := by
  by_cases hd : ∀ p, d ≠ pasidDevTlb p
  · have hwords : d.words4.w0 = pack 64 (d.layout .w0) := by
      have hw := congrArg (fun ws : Words => ws.w0) (d.words_eq hd)
      cases d with
      | pasidDevTlb p => exact absurd rfl (hd p)
      | _ => exact hw
    have htype : QiType.fromWord0 d.words4.w0 = d.ty := by
      rw [hwords]
      exact fromWord0_pack d.ty _ d.ty_lt (d.layout_fitting .w0)
    simp only [htype, true_iff]
    exact fun p hp => absurd hp (hd p)
  · obtain ⟨p, hp⟩ := not_forall.mp hd
    obtain rfl := not_not.mp hp
    have hread : QiType.fromWord0 ((pasidDevTlb p).words4.w0) = _ := p.readType
    rw [hread]
    cases hg : p.global <;> simp [ty, hg, QiType.pageGroupResponse, QiType.pasidDeviceTlb]

/-- A global invalidation for PASID 0 is read as a page group response. -/
theorem global_reads_page_group :
    QiType.fromWord0 ((pasidDevTlb ⟨true, 0#32, 0#64, false, 0#16, 0#16⟩).words4.w0) = .pageGroupResponse ∧
      QiType.fromWord0 ((pasidDevTlb ⟨true, 0#32, 0#64, false, 0#16, 0#16⟩).words4.w0) ≠
        (pasidDevTlb ⟨true, 0#32, 0#64, false, 0#16, 0#16⟩).ty := by
  decide

/-! ### Decoding and encoding -/

/-- The bits of each word that the type and a descriptor of this shape are read from. -/
def readMask (d : QiDesc) (j : Words.At) : U64 := codec.readMask d j

/-- A descriptor that fits is encoded by the codec. -/
theorem words_of_fits {d : QiDesc} (h : d.Fits) : d.words = ⟨codec.encode d .w0, codec.encode d .w1⟩ :=
  d.words_eq fun p hp => by
    rw [hp] at h
    exact h

theorem fromWords_of_fits {d : QiDesc} (h : d.Fits) : fromWords d.words.w0 d.words.w1 = some d := by
  rw [words_of_fits h]
  exact codec.decode_encode h

/-- The decoder of its own shape returns it. -/
theorem decodes_of_fits {d : QiDesc} (h : d.Fits) : d.Decodes d.words.w0 d.words.w1 :=
  ((fromWords_eq_iff d.words.w0 d.words.w1 d).mp (fromWords_of_fits h)).2

/-- **Decoding undoes encoding, and encoding undoes decoding** on the bits read. A
descriptor that fits comes back from its words; the 256-bit one leaves none; and
what any two words decode to fits and encodes to those words with the bits that
are not read cleared, a bit being read when flipping it changes the outcome. -/
theorem words_round_trip :
    (∀ d : QiDesc, d.Fits → fromWords d.words.w0 d.words.w1 = some d) ∧
    (∀ p, fromWords ((pasidDevTlb p).words.w0) ((pasidDevTlb p).words.w1) = none) ∧
    (∀ w0 w1 d, fromWords w0 w1 = some d →
      d.Fits ∧ d.words = ⟨w0 &&& d.readMask .w0, w1 &&& d.readMask .w1⟩ ∧
      (∀ i, i < 64 → ((d.readMask .w0).getLsbD i = true ↔
        fromWords (w0 ^^^ BitVec.twoPow 64 i) w1 ≠ some d)) ∧
      (∀ i, i < 64 → ((d.readMask .w1).getLsbD i = true ↔
        fromWords w0 (w1 ^^^ BitVec.twoPow 64 i) ≠ some d))) := by
  have hnone : fromWords 0#64 0#64 = none := by decide
  refine ⟨fun d hd => fromWords_of_fits hd, fun _ => hnone, fun w0 w1 d h => ?_⟩
  let ws : Words.At → U64 := fun | .w0 => w0 | .w1 => w1
  have hdec : codec.decode ws = some d := h
  refine ⟨codec.fits_of_decode hdec, ?_, fun i hi => ?_, fun i hi => ?_⟩
  · rw [words_of_fits (codec.fits_of_decode hdec), codec.encode_of_decode hdec, codec.encode_of_decode hdec]
    rfl
  · exact codec.readMask_exact hdec .w0 hi
  · exact codec.readMask_exact hdec .w1 hi

/-- The wait descriptor of the source's tests, a status write of 1 to 0x1000. -/
theorem status_write_round_trip : fromWords
    ((QiDesc.wait ⟨false, true, false, 1#32, 0x1000#64⟩).words.w0)
    ((QiDesc.wait ⟨false, true, false, 1#32, 0x1000#64⟩).words.w1) =
      some (.wait ⟨false, true, false, 1#32, 0x1000#64⟩) :=
  words_round_trip.1 (.wait ⟨false, true, false, 1#32, 0x1000#64⟩) (by decide : 0x1000 % 8 = 0)

example : (contextCache ⟨.global, 0#16, 0#16, 0#8⟩).readMask .w0 = 0x3ffffffff0e3f#64 := by decide

end QiDesc

end Iommu.Intel.Qi
