import Iommu.Bits

/-! Peripheral page request log entries (`amd-iommu/src/ppr.rs`).

The encoder writes the PASID over dword 0 and four bits of dword 1; the decoder
reads three of the four. -/
namespace Iommu.Amd.Ppr
open Lib Lib.Word

structure PprCode where
  value : U8
  deriving DecidableEq, Repr

def PprCode.pageServiceRequest : PprCode := ⟨0x1#8⟩

structure PprEntry where
  deviceId : U16
  pasid : U32
  pprTag : U16
  addr : U64
  gn : Bool
  rz : Bool
  user : Bool
  write : Bool
  read : Bool
  nx : Bool
  deriving DecidableEq, Repr

namespace PprEntry

def words (e : PprEntry) : Dwords :=
  let d0 := e.deviceId.setWidth 32 ||| ((e.pasid &&& 0xffff#32) <<< 16)
  let d1 := (PprCode.pageServiceRequest.value.setWidth 32 <<< 28) ||| (boolAs 32 e.gn <<< 26) |||
    (boolAs 32 e.rz <<< 25) ||| (boolAs 32 e.user <<< 24) ||| (boolAs 32 e.write <<< 23) |||
    (boolAs 32 e.read <<< 21) ||| (boolAs 32 e.nx <<< 20) ||| (((e.pasid >>> 16) &&& 0xf#32) <<< 16) |||
    (e.pprTag.setWidth 32 &&& 0xffff#32)
  let d2 := (e.addr >>> 12).setWidth 32 &&& 0xfffff#32
  let d3 := (e.addr >>> 32).setWidth 32
  ⟨d0, d1, d2, d3⟩

def fromWords (words : Dwords) : PprEntry where
  deviceId := (words.d0 &&& 0xffff#32).setWidth 16
  pasid := (words.d0 >>> 16) ||| ((extractBits (words.d1.setWidth 64) 18 16).setWidth 32 <<< 16)
  pprTag := (words.d1 &&& 0xffff#32).setWidth 16
  addr := (words.d3.setWidth 64 <<< 32) ||| ((words.d2 &&& 0xfffff#32).setWidth 64 <<< 12)
  gn := words.d1 &&& (1#32 <<< 26) != 0#32
  rz := words.d1 &&& (1#32 <<< 25) != 0#32
  user := words.d1 &&& (1#32 <<< 24) != 0#32
  write := words.d1 &&& (1#32 <<< 23) != 0#32
  read := words.d1 &&& (1#32 <<< 21) != 0#32
  nx := words.d1 &&& (1#32 <<< 20) != 0#32

/-! ### What is written -/

def layout (e : PprEntry) : Dwords.At → List Field
  | .d0 => [⟨0, 16, e.deviceId⟩, ⟨16, 16, e.pasid.extractLsb' 0 16⟩]
  | .d1 => [⟨28, 4, 0x1#4⟩, ⟨26, 1, BitVec.ofBool e.gn⟩, ⟨25, 1, BitVec.ofBool e.rz⟩,
      ⟨24, 1, BitVec.ofBool e.user⟩, ⟨23, 1, BitVec.ofBool e.write⟩, ⟨21, 1, BitVec.ofBool e.read⟩,
      ⟨20, 1, BitVec.ofBool e.nx⟩, ⟨16, 4, e.pasid.extractLsb' 16 4⟩, ⟨0, 16, e.pprTag⟩]
  | .d2 => [⟨0, 20, e.addr.extractLsb' 12 20⟩]
  | .d3 => [⟨0, 32, e.addr.extractLsb' 32 32⟩]

theorem words_eq (e : PprEntry) : e.words =
    ⟨pack 32 (e.layout .d0), pack 32 (e.layout .d1), pack 32 (e.layout .d2), pack 32 (e.layout .d3)⟩ := by
  have htag : place 32 0 e.pprTag = e.pprTag.setWidth 32 &&& mask 32 0 16 := by
    simp (disch := decide) only [and_mask_zero, BitVec.setWidth_setWidth_of_le, BitVec.setWidth_eq, place_zero]
  have hlow := mask_place 16 e.pasid 16
  have hhigh := shift_mask_place 4 e.pasid 16 16
  have haddr := cast_mask_place 20 e.addr 12 0 (show 20 ≤ 32 by decide)
  simp only [layout, pack_cons, pack_nil, BitVec.or_zero, ← BitVec.or_assoc, htag, ← hlow, ← hhigh, ← haddr]
  simp only [← setWidth_shift, place_zero, BitVec.shiftLeft_zero]
  rfl

theorem layout_fitting (e : PprEntry) (j : Dwords.At) : Fitting 32 (extents (e.layout j)) := by
  cases j <;> exact of_decide_eq_true rfl

/-! ### What is read back -/

/-- Bit 19 of the PASID, the top bit of its nibble in dword 1, is not read. -/
theorem pasid_read {w0 w1 p : U32} (h0 : w0.extractLsb' 16 16 = p.extractLsb' 0 16)
    (h1 : w1.extractLsb' 16 4 = p.extractLsb' 16 4) :
    (w0 >>> 16) ||| ((extractBits (w1.setWidth 64) 18 16).setWidth 32 <<< 16) = p &&& 0x7ffff#32 := by
  have hlow : w0 >>> 16 = place 32 0 (p.extractLsb' 0 16) := by
    rw [shift_eq_place 16 w0 16 rfl, h0]
  have hmid : (w1.setWidth 64).extractLsb' 16 3 = p.extractLsb' 16 3 := by
    rw [BitVec.extractLsb'_setWidth_of_le (by decide)]
    have := congrArg (fun x : BitVec 4 => x.extractLsb' 0 3) h1
    simpa only [slice_slice _ _ _ (show 0 + 3 ≤ 4 by decide)] using this
  have hmask : 0x7ffff#32 = mask 32 0 16 ||| mask 32 16 3 := rfl
  rw [setWidth_extractBits 3 _ rfl (by decide) (by decide), hmid, hlow, hmask,
    BitVec.and_or_distrib_left, and_mask, and_mask]
  rfl

theorem addr_read {w2 w3 : U32} {a : U64} (h2 : w2.extractLsb' 0 20 = a.extractLsb' 12 20)
    (h3 : w3.extractLsb' 0 32 = a.extractLsb' 32 32) :
    (w3.setWidth 64 <<< 32) ||| ((w2 &&& 0xfffff#32).setWidth 64 <<< 12) = a &&& ~~~0xfff#64 := by
  rw [BitVec.extractLsb'_eq_self] at h3
  have hholds : Holds (splitPage w2 w3) a := (splitPage_holds w2 w3 a).mpr ⟨h2, h3⟩
  rw [splitPage_eq, pack_of_holds (splitPage_fitting w2 w3) (splitPage_cover w2 w3) hholds]

/-- What comes back of an entry: all of it but PASID bit 19 and above, and the low
bits of the address. -/
theorem fromWords_words (e : PprEntry) :
    fromWords e.words = { e with pasid := e.pasid &&& 0x7ffff#32, addr := e.addr &&& ~~~0xfff#64 } := by
  have hholds : ∀ j, Holds (e.layout j) (pack 32 (e.layout j)) := fun j => holds_pack (e.layout_fitting j)
  have h0 := hholds .d0
  have h1 := hholds .d1
  have h2 := hholds .d2
  have h3 := hholds .d3
  rw [words_eq]
  generalize pack 32 (e.layout .d0) = w0 at h0
  generalize pack 32 (e.layout .d1) = w1 at h1
  generalize pack 32 (e.layout .d2) = w2 at h2
  generalize pack 32 (e.layout .d3) = w3 at h3
  simp only [layout, holds_cons, holds_nil, and_true, slice_flag_iff] at h0 h1 h2 h3
  obtain ⟨hdevice, hpasid⟩ := h0
  obtain ⟨_, hgn, hrz, huser, hwrite, hread, hnx, hnibble, htag⟩ := h1
  rw [fromWords, pasid_read hpasid hnibble, addr_read h2 h3, low_half, low_half, hdevice, htag]
  simp only [flag_eq, hgn, hrz, huser, hwrite, hread, hnx]

/-- **When an entry comes back whole**: exactly when its PASID has 19 bits. -/
theorem round_trip_iff (e : PprEntry) (ha : e.addr.toNat % 4096 = 0) :
    fromWords e.words = e ↔ e.pasid.toNat < 2 ^ 19 := by
  have haddr : e.addr &&& ~~~0xfff#64 = e.addr := (page_iff e.addr e.addr).mpr ⟨ha, rfl⟩
  have hpasid : e.pasid &&& 0x7ffff#32 = e.pasid ↔ e.pasid.toNat < 2 ^ 19 := by
    have hmask : 0x7ffff#32 = mask 32 0 19 := rfl
    rw [hmask, and_mask_zero, setWidth_eq_iff _ e.pasid (by decide), ← setWidth_shift, BitVec.ushiftRight_zero]
    exact and_iff_left rfl
  rw [fromWords_words, haddr, ← hpasid]
  cases e with
  | mk deviceId pasid pprTag addr gn rz user write read nx => simp only [PprEntry.mk.injEq, true_and, and_true]

theorem round_trip_pasid_5a :
    fromWords (PprEntry.mk 0x1234#16 0x5a#32 0x7#16 0x12345000#64 false false false false false false).words =
        PprEntry.mk 0x1234#16 0x5a#32 0x7#16 0x12345000#64 false false false false false false ↔
      0x5a < 2 ^ 19 :=
  round_trip_iff ⟨0x1234#16, 0x5a#32, 0x7#16, 0x12345000#64, false, false, false, false, false, false⟩
    (by decide)

/-- PASID 0x80000 comes back as 0. -/
theorem pasid_top_bit_lost :
    fromWords (PprEntry.mk 0#16 0x80000#32 0#16 0#64 false false false false false false).words ≠
      PprEntry.mk 0#16 0x80000#32 0#16 0#64 false false false false false false := by
  decide

end PprEntry

end Iommu.Amd.Ppr
