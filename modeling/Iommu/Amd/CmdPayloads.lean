import Iommu.Amd.Cmd
import Iommu.Lib.Codec

/-! The payloads of the commands.

There is no decoder of a command in the crate. Each encoder packs the fields of its
payload, some of them in several pieces, and packed words tell their fields apart, so
equal dwords are of payloads that are equal in every bit that has room
(`payloads_lossless`). -/
namespace Iommu.Amd.Cmd
open Lib Lib.Word

/-- Dwords packed by the same extents. -/
theorem dwords_eq_iff {L M : Dwords.At → List Field} (hext : ∀ j, extents (L j) = extents (M j))
    (h : ∀ j, Fitting 32 (extents (L j))) :
    (⟨pack 32 (L .d0), pack 32 (L .d1), pack 32 (L .d2), pack 32 (L .d3)⟩ : Dwords) =
      ⟨pack 32 (M .d0), pack 32 (M .d1), pack 32 (M .d2), pack 32 (M .d3)⟩ ↔
        L .d0 = M .d0 ∧ L .d1 = M .d1 ∧ L .d2 = M .d2 ∧ L .d3 = M .d3 := by
  rw [Dwords.mk.injEq, pack_eq_iff (hext .d0) (h .d0), pack_eq_iff (hext .d1) (h .d1),
    pack_eq_iff (hext .d2) (h .d2), pack_eq_iff (hext .d3) (h .d3)]

/-! ### Fields in pieces -/

theorem ofBool_eq_iff (b b' : Bool) : BitVec.ofBool b = BitVec.ofBool b' ↔ b = b' := by
  cases b <;> cases b' <;> decide

/-- A qword by its two dwords. -/
theorem data_eq_iff (x y : U64) :
    x = y ↔ x.extractLsb' 0 32 = y.extractLsb' 0 32 ∧ x.extractLsb' 32 32 = y.extractLsb' 32 32 := by
  have hsplit := slice_split_iff x y 0 0 32 32
  rwa [BitVec.extractLsb'_eq_self, BitVec.extractLsb'_eq_self] at hsplit

/-- A store address, cut at bit 32. -/
theorem store_eq_iff (x y : U64) : x &&& 0x000ffffffffffff8#64 = y &&& 0x000ffffffffffff8#64 ↔
    x.extractLsb' 3 29 = y.extractLsb' 3 29 ∧ x.extractLsb' 32 20 = y.extractLsb' 32 20 := by
  have hmask : 0x000ffffffffffff8#64 = mask 64 3 49 := rfl
  rw [hmask, and_mask_eq_iff 3 x y (by decide)]
  exact slice_split_iff x y 3 3 29 20

/-- A page address, cut at bit 32. -/
theorem page_eq_iff (x y : U64) : x &&& ~~~0xfff#64 = y &&& ~~~0xfff#64 ↔
    x.extractLsb' 12 20 = y.extractLsb' 12 20 ∧ x.extractLsb' 32 32 = y.extractLsb' 32 32 := by
  have hmask : ~~~0xfff#64 = mask 64 12 52 := rfl
  rw [hmask, and_mask_eq_iff 12 x y (by decide)]
  exact slice_split_iff x y 12 12 20 32

theorem pasid_eq_iff (x y : U32) : x &&& 0xfffff#32 = y &&& 0xfffff#32 ↔ x.extractLsb' 0 20 = y.extractLsb' 0 20 := by
  have hmask : 0xfffff#32 = mask 32 0 20 := rfl
  rw [hmask, and_mask_eq_iff 0 x y (by decide)]

/-- A PASID, cut at bits 8 and 16. -/
theorem pasid_pieces_iff (x y : U32) : x &&& 0xfffff#32 = y &&& 0xfffff#32 ↔ x.extractLsb' 8 8 = y.extractLsb' 8 8 ∧
    x.extractLsb' 16 4 = y.extractLsb' 16 4 ∧ x.extractLsb' 0 8 = y.extractLsb' 0 8 := by
  have hlow := slice_split_iff x y 0 0 8 12
  have hhigh := slice_split_iff x y 8 8 8 4
  rw [pasid_eq_iff, hlow, hhigh, and_comm, and_assoc]

theorem invType_eq_iff (x y : U8) : x &&& 0x3#8 = y &&& 0x3#8 ↔ x.extractLsb' 0 2 = y.extractLsb' 0 2 := by
  have hmask : 0x3#8 = mask 8 0 2 := rfl
  rw [hmask, and_mask_eq_iff 0 x y (by decide)]

/-! ### Values in range -/

theorem pasid_fits_iff (x : U32) : x.toNat < 2 ^ 20 ↔ x &&& 0xfffff#32 = x := by
  have hmask : 0xfffff#32 = mask 32 0 20 := rfl
  rw [hmask, and_mask_eq_self_iff 0 x (by decide)]
  omega

theorem invType_fits_iff (x : U8) : x.toNat < 4 ↔ x &&& 0x3#8 = x := by
  have hmask : 0x3#8 = mask 8 0 2 := rfl
  rw [hmask, and_mask_eq_self_iff 0 x (by decide)]
  omega

theorem page_fits_iff (x : U64) : x.toNat % 4096 = 0 ↔ x &&& ~~~0xfff#64 = x := by
  have hmask : ~~~0xfff#64 = mask 64 12 52 := rfl
  rw [hmask, and_mask_eq_self_iff 12 x (by decide)]
  exact (and_iff_left x.isLt).symm

theorem store_fits_iff (x : U64) : x.toNat % 8 = 0 ∧ x.toNat < 2 ^ 52 ↔ x &&& 0x000ffffffffffff8#64 = x := by
  have hmask : 0x000ffffffffffff8#64 = mask 64 3 49 := rfl
  rw [hmask, and_mask_eq_self_iff 3 x (by decide)]
  exact Iff.rfl

theorem masked_twice {w : Nat} (x m : BitVec w) : x &&& m &&& m = x &&& m := by
  rw [BitVec.and_assoc, BitVec.and_self]

/-! ### Completion waits -/

namespace CompletionWait

def Fits (c : CompletionWait) : Prop := c.storeAddr.toNat % 8 = 0 ∧ c.storeAddr.toNat < 2 ^ 52

/-- Only the store address has bits without room. -/
def masked (c : CompletionWait) : CompletionWait := { c with storeAddr := c.storeAddr &&& 0x000ffffffffffff8#64 }

def layout (c : CompletionWait) : Dwords.At → List Field
  | .d0 => [⟨0, 1, BitVec.ofBool c.store⟩, ⟨1, 1, BitVec.ofBool c.interrupt⟩, ⟨2, 1, BitVec.ofBool c.flush⟩,
      ⟨3, 29, c.storeAddr.extractLsb' 3 29⟩]
  | .d1 => [⟨28, 4, 0x1#4⟩, ⟨0, 20, c.storeAddr.extractLsb' 32 20⟩]
  | .d2 => [⟨0, 32, c.storeData.extractLsb' 0 32⟩]
  | .d3 => [⟨0, 32, c.storeData.extractLsb' 32 32⟩]

theorem encode_eq (c : CompletionWait) : c.encode =
    ⟨pack 32 (c.layout .d0), pack 32 (c.layout .d1), pack 32 (c.layout .d2), pack 32 (c.layout .d3)⟩ := by
  rw [encode_layout]
  simp only [layout, pack_cons, pack_nil, BitVec.or_zero, ← BitVec.or_assoc]
  simp only [place_zero, BitVec.setWidth_eq]

theorem layout_fitting (c : CompletionWait) (j : Dwords.At) : Fitting 32 (extents (c.layout j)) := by
  cases j <;> exact of_decide_eq_true rfl

theorem encode_eq_iff (c c' : CompletionWait) : c.encode = c'.encode ↔ c.masked = c'.masked := by
  rw [encode_eq, encode_eq, dwords_eq_iff (fun j => by cases j <;> rfl) c.layout_fitting]
  simp only [layout, masked, List.cons.injEq, Field.mk.injEq, heq_eq_eq, true_and, and_true, ofBool_eq_iff, mk.injEq,
    store_eq_iff, data_eq_iff c.storeData c'.storeData]
  simp only [and_assoc]

theorem fits_iff (c : CompletionWait) : c.Fits ↔ c.masked = c := by
  rw [Fits, store_fits_iff]
  cases c
  simp only [masked, mk.injEq, and_true, true_and]

theorem lossless : Lossless encode Fits masked :=
  .of_eq_iff encode_eq_iff fits_iff fun c => by rw [masked, masked, masked_twice]

end CompletionWait

/-! ### Invalidations of pages -/

namespace InvalidateIommuPages

def Fits (c : InvalidateIommuPages) : Prop := c.pasid.toNat < 2 ^ 20 ∧ c.addr.toNat % 4096 = 0

def masked (c : InvalidateIommuPages) : InvalidateIommuPages :=
  { c with pasid := c.pasid &&& 0xfffff#32, addr := c.addr &&& ~~~0xfff#64 }

def layout (c : InvalidateIommuPages) : Dwords.At → List Field
  | .d0 => [⟨0, 20, c.pasid.extractLsb' 0 20⟩]
  | .d1 => [⟨28, 4, 0x3#4⟩, ⟨0, 16, c.domainId⟩]
  | .d2 => [⟨12, 20, c.addr.extractLsb' 12 20⟩, ⟨2, 1, BitVec.ofBool c.guestNested⟩, ⟨1, 1, BitVec.ofBool c.pde⟩,
      ⟨0, 1, BitVec.ofBool c.size⟩]
  | .d3 => [⟨0, 32, c.addr.extractLsb' 32 32⟩]

theorem encode_eq (c : InvalidateIommuPages) : c.encode =
    ⟨pack 32 (c.layout .d0), pack 32 (c.layout .d1), pack 32 (c.layout .d2), pack 32 (c.layout .d3)⟩ := by
  rw [encode_layout]
  simp only [layout, pack_cons, pack_nil, BitVec.or_zero, ← BitVec.or_assoc]
  simp only [place_zero, BitVec.setWidth_eq]

theorem layout_fitting (c : InvalidateIommuPages) (j : Dwords.At) : Fitting 32 (extents (c.layout j)) := by
  cases j <;> exact of_decide_eq_true rfl

theorem encode_eq_iff (c c' : InvalidateIommuPages) : c.encode = c'.encode ↔ c.masked = c'.masked := by
  rw [encode_eq, encode_eq, dwords_eq_iff (fun j => by cases j <;> rfl) c.layout_fitting]
  simp only [layout, masked, List.cons.injEq, Field.mk.injEq, heq_eq_eq, true_and, and_true, ofBool_eq_iff, mk.injEq,
    pasid_eq_iff, page_eq_iff]
  tauto

theorem fits_iff (c : InvalidateIommuPages) : c.Fits ↔ c.masked = c := by
  rw [Fits, pasid_fits_iff, page_fits_iff]
  cases c
  simp only [masked, mk.injEq, and_true, true_and]

theorem lossless : Lossless encode Fits masked :=
  .of_eq_iff encode_eq_iff fits_iff fun c => by rw [masked, masked, masked_twice, masked_twice]

end InvalidateIommuPages

namespace InvalidateIotlbPages

def Fits (c : InvalidateIotlbPages) : Prop :=
  c.pasid.toNat < 2 ^ 20 ∧ c.addr.toNat % 4096 = 0 ∧ c.invType.toNat < 4

def masked (c : InvalidateIotlbPages) : InvalidateIotlbPages :=
  { c with pasid := c.pasid &&& 0xfffff#32, addr := c.addr &&& ~~~0xfff#64, invType := c.invType &&& 0x3#8 }

/-- The PASID is in three pieces, one of them before the other two. -/
def layout (c : InvalidateIotlbPages) : Dwords.At → List Field
  | .d0 => [⟨0, 16, c.deviceId⟩, ⟨16, 8, c.pasid.extractLsb' 8 8⟩, ⟨24, 8, c.maxPend⟩]
  | .d1 => [⟨28, 4, 0x4#4⟩, ⟨24, 4, c.pasid.extractLsb' 16 4⟩, ⟨16, 8, c.pasid.extractLsb' 0 8⟩, ⟨0, 16, c.queueId⟩]
  | .d2 => [⟨12, 20, c.addr.extractLsb' 12 20⟩, ⟨4, 2, c.invType.extractLsb' 0 2⟩,
      ⟨2, 1, BitVec.ofBool c.guestNested⟩, ⟨0, 1, BitVec.ofBool c.size⟩]
  | .d3 => [⟨0, 32, c.addr.extractLsb' 32 32⟩]

theorem encode_eq (c : InvalidateIotlbPages) : c.encode =
    ⟨pack 32 (c.layout .d0), pack 32 (c.layout .d1), pack 32 (c.layout .d2), pack 32 (c.layout .d3)⟩ := by
  have hmask : 0x3#8 = mask 8 0 2 := rfl
  rw [encode_layout, hmask, place_and_mask _ _ (by decide)]
  simp only [layout, pack_cons, pack_nil, BitVec.or_zero, ← BitVec.or_assoc]
  simp only [place_zero, BitVec.setWidth_eq]

theorem layout_fitting (c : InvalidateIotlbPages) (j : Dwords.At) : Fitting 32 (extents (c.layout j)) := by
  cases j <;> exact of_decide_eq_true rfl

theorem encode_eq_iff (c c' : InvalidateIotlbPages) : c.encode = c'.encode ↔ c.masked = c'.masked := by
  rw [encode_eq, encode_eq, dwords_eq_iff (fun j => by cases j <;> rfl) c.layout_fitting]
  simp only [layout, masked, List.cons.injEq, Field.mk.injEq, heq_eq_eq, true_and, and_true, ofBool_eq_iff, mk.injEq,
    pasid_pieces_iff, page_eq_iff, invType_eq_iff]
  tauto

theorem fits_iff (c : InvalidateIotlbPages) : c.Fits ↔ c.masked = c := by
  rw [Fits, pasid_fits_iff, page_fits_iff, invType_fits_iff]
  cases c
  simp only [masked, mk.injEq, and_true, true_and]

theorem lossless : Lossless encode Fits masked :=
  .of_eq_iff encode_eq_iff fits_iff fun c => by rw [masked, masked, masked_twice, masked_twice, masked_twice]

end InvalidateIotlbPages

/-! ### Payloads with room for everything -/

namespace InvalidateDevTabEntry

theorem encode_eq_iff (c c' : InvalidateDevTabEntry) : c.encode = c'.encode ↔ c = c' := by
  refine ⟨fun h => devtab_words_injective ?_, congrArg encode⟩
  rw [Command.words, Command.words, h]

theorem lossless : Lossless encode (fun _ => True) id :=
  .of_eq_iff encode_eq_iff (fun _ => ⟨fun _ => rfl, fun _ => trivial⟩) fun _ => rfl

end InvalidateDevTabEntry

namespace CompletePprRequest

def layout (c : CompletePprRequest) : Bool → List Field
  | false => [⟨0, 16, c.deviceId⟩, ⟨16, 16, c.pprTag⟩]
  | true => [⟨28, 4, 0x7#4⟩, ⟨0, 16, c.pasid⟩]

theorem encode_eq (c : CompletePprRequest) : c.encode = (pack 32 (c.layout false), pack 32 (c.layout true)) := by
  simp only [layout, pack_cons, pack_nil, BitVec.or_zero, place_zero]
  rfl

theorem layout_fitting (c : CompletePprRequest) (j : Bool) : Fitting 32 (extents (c.layout j)) := by
  cases j <;> exact of_decide_eq_true rfl

theorem encode_eq_iff (c c' : CompletePprRequest) : c.encode = c'.encode ↔ c = c' := by
  have hd0 : pack 32 (c.layout false) = pack 32 (c'.layout false) ↔ _ := pack_eq_iff rfl (c.layout_fitting false)
  have hd1 : pack 32 (c.layout true) = pack 32 (c'.layout true) ↔ _ := pack_eq_iff rfl (c.layout_fitting true)
  rw [encode_eq, encode_eq, Prod.mk.injEq, hd0, hd1]
  cases c
  cases c'
  simp only [layout, List.cons.injEq, Field.mk.injEq, heq_eq_eq, true_and, and_true, mk.injEq, and_assoc]

theorem lossless : Lossless encode (fun _ => True) id :=
  .of_eq_iff encode_eq_iff (fun _ => ⟨fun _ => rfl, fun _ => trivial⟩) fun _ => rfl

end CompletePprRequest

/-- **No payload loses what its fields have room for**, and none spills: what does not
fit is masked, and the opcode is the one of its kind. -/
theorem payloads_lossless :
    (Lossless CompletionWait.encode CompletionWait.Fits CompletionWait.masked ∧
      ∀ c : CompletionWait, Opcode.fromDword1 (c.encode.d1) = .completionWait) ∧
    (Lossless InvalidateDevTabEntry.encode (fun _ => True) id ∧
      ∀ c : InvalidateDevTabEntry, Opcode.fromDword1 c.encode.2 = .invalidateDevtabEntry) ∧
    (Lossless InvalidateIommuPages.encode InvalidateIommuPages.Fits InvalidateIommuPages.masked ∧
      ∀ c : InvalidateIommuPages, Opcode.fromDword1 (c.encode.d1) = .invalidateIommuPages) ∧
    (Lossless InvalidateIotlbPages.encode InvalidateIotlbPages.Fits InvalidateIotlbPages.masked ∧
      ∀ c : InvalidateIotlbPages, Opcode.fromDword1 (c.encode.d1) = .invalidateIotlbPages) ∧
    (Lossless CompletePprRequest.encode (fun _ => True) id ∧
      ∀ c : CompletePprRequest, Opcode.fromDword1 c.encode.2 = .completePprRequest) :=
  ⟨⟨CompletionWait.lossless, fun c => readOpcode_eq (.completionWait c)⟩,
    ⟨InvalidateDevTabEntry.lossless, fun c => readOpcode_eq (.invalidateDevTabEntry c)⟩,
    ⟨InvalidateIommuPages.lossless, fun c => readOpcode_eq (.invalidateIommuPages c)⟩,
    ⟨InvalidateIotlbPages.lossless, fun c => readOpcode_eq (.invalidateIotlbPages c)⟩,
    ⟨CompletePprRequest.lossless, fun c => readOpcode_eq (.completePprRequest c)⟩⟩

end Iommu.Amd.Cmd
