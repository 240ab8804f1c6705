import Iommu.Intel.Regs
import Iommu.Intel.QiCodec

/-! What the register words hold.

Each word is the packed word of its fields, and its getters read them where they are
put. Two of the words have a field within another one: a context command's function
mask is on its source id, a table's size on its base. Such a word is read back exactly
when the two agree there; the others always are. -/
namespace Iommu.Intel.Regs
open Lib Lib.Word Qi

/-- A page address that is extracted and shifted back. -/
theorem extract_page_iff (v x : U64) : extractBits v 63 12 <<< 12 = x ↔
    x.toNat % 4096 = 0 ∧ v.extractLsb' 12 52 = x.extractLsb' 12 52 := by
  have hplace : extractBits v 63 12 <<< 12 = place 64 12 (v.extractLsb' 12 52) := by
    rw [extractBits_eq v (by decide) (by decide)]
    rfl
  rw [hplace]
  exact place_eq_iff 12 _ x rfl

/-! ### Context commands -/

def Cirg.code : Cirg → BitVec 2
  | reserved => 0#2
  | global => 1#2
  | domain => 2#2
  | device => 3#2

namespace Ccmd

def layout (g : Cirg) (did sid : U16) (fm : U8) : List Field :=
  [⟨4, 2, g.code⟩, ⟨8, 16, did⟩, ⟨32, 16, sid⟩, ⟨32, 2, fm.extractLsb' 0 2⟩]

theorem new_eq (g : Cirg) (did sid : U16) (fm : U8) : (new g did sid fm).value = pack 64 (layout g did sid fm) := by
  simp only [layout, pack_cons, pack_nil, BitVec.or_zero, ← place_and_mask fm 32 (show 2 ≤ 8 by decide),
    ← BitVec.or_assoc]
  cases g <;> rfl

theorem granularity_iff (c : Ccmd) (g : Cirg) : c.granularity = g ↔ c.value.extractLsb' 4 2 = g.code := by
  have hx : extractBits c.value 5 4 = (c.value.extractLsb' 4 2).setWidth 64 :=
    extractBits_eq c.value (by decide) (by decide)
  rw [granularity, hx]
  generalize c.value.extractLsb' 4 2 = x
  revert x
  cases g <;> decide

/-- The getters return what was asked for. -/
structure Reads (c : Ccmd) (g : Cirg) (did sid : U16) (fm : U8) : Prop where
  granularity : c.granularity = g
  did : c.did = did
  sid : c.sid = sid
  fm : c.fm = fm

theorem reads_iff (c : Ccmd) (g : Cirg) (did sid : U16) (fm : U8) :
    c.Reads g did sid fm ↔ fm.toNat < 2 ^ 2 ∧ Holds (layout g did sid fm) c.value := by
  have hdid : c.did = did ↔ c.value.extractLsb' 8 16 = did := by
    rw [Ccmd.did, extractBits_low c.value (by decide) (by decide)]
  have hsid : c.sid = sid ↔ c.value.extractLsb' 32 16 = sid :=
    extractBits_full_iff c.value sid rfl (by decide) (by decide)
  have hfm : c.fm = fm ↔ fm.toNat < 2 ^ 2 ∧ c.value.extractLsb' 32 2 = fm.extractLsb' 0 2 :=
    extractBits_narrow_iff 2 c.value fm rfl (by decide) (by decide) (by decide)
  simp only [layout, holds_cons, holds_nil, and_true, ← granularity_iff, ← hdid, ← hsid]
  constructor
  · intro h
    have := hfm.mp h.fm
    exact ⟨this.1, h.granularity, h.did, h.sid, this.2⟩
  · intro ⟨hlt, hg, hd, hs, hf⟩
    exact ⟨hg, hd, hs, hfm.mpr ⟨hlt, hf⟩⟩

/-- A command is read back when the mask is the low bits of the source id. -/
theorem new_reads_iff (g : Cirg) (did sid : U16) (fm : U8) (hfm : fm.toNat < 2 ^ 2) :
    (new g did sid fm).Reads g did sid fm ↔ sid.extractLsb' 0 2 = fm.extractLsb' 0 2 := by
  have hfits : ∀ f ∈ layout g did sid fm, f.lo + f.width ≤ 64 := by
    simp [layout]
  rw [reads_iff, and_iff_right hfm, new_eq, holds_pack_iff hfits, layout]
  simp (disch := decide) only [List.pairwise_cons, List.forall_mem_cons, List.not_mem_nil, false_imp_iff,
    implies_true, List.Pairwise.nil, agree_of_apart, and_true, true_and]
  exact agree_inner 0 sid _ rfl (by decide)

end Ccmd

/-! ### The invalidation queue -/

/-- The word of a queue keeps its page and its width. -/
theorem Iqa.new_reads (base : U64) (wide : Bool) :
    (new base wide).base = base &&& ~~~0xfff#64 ∧ (new base wide).wideDescriptors = wide := by
  have hpack : (new base wide).value = pack 64 [⟨12, 52, base.extractLsb' 12 52⟩, ⟨4, 1, BitVec.ofBool wide⟩] := by
    have hflag : boolAs 64 wide <<< 4 = place 64 4 (BitVec.ofBool wide) := rfl
    simp only [pack_cons, pack_nil, BitVec.or_zero, place_page, ← hflag]
    rfl
  have hholds := holds_pack (L := [⟨12, 52, base.extractLsb' 12 52⟩, ⟨4, 1, BitVec.ofBool wide⟩]) (w := 64)
    (of_decide_eq_true rfl)
  rw [← hpack, holds_cons, holds_cons] at hholds
  have hmask : ~~~0xfff#64 = mask 64 12 52 := rfl
  have hpage : (new base wide).value.extractLsb' 12 52 = base.extractLsb' 12 52 := hholds.1
  constructor
  · rw [hmask, and_mask, ← hpage, Iqa.base, extractBits_eq _ (by decide) (by decide)]
    rfl
  · exact (extractBits_flag _ (by decide) wide).mpr hholds.2.1

/-! ### The interrupt remapping table -/

namespace Irta

def layout (base : U64) (sizeOrder : U8) (x2apic : Bool) : List Field :=
  [⟨12, 52, base.extractLsb' 12 52⟩, ⟨14, 2, sizeOrder.extractLsb' 0 2⟩, ⟨11, 1, BitVec.ofBool x2apic⟩]

theorem new_eq (base : U64) (sizeOrder : U8) (x2apic : Bool) :
    (new base sizeOrder x2apic).value = pack 64 (layout base sizeOrder x2apic) := by
  have hflag : boolAs 64 x2apic <<< 11 = place 64 11 (BitVec.ofBool x2apic) := rfl
  simp only [layout, pack_cons, pack_nil, BitVec.or_zero, ← place_and_mask sizeOrder 14 (show 2 ≤ 8 by decide),
    place_page, ← hflag, ← BitVec.or_assoc]
  rfl

/-- The getters return what was asked for. -/
structure Reads (i : Irta) (base : U64) (sizeOrder : U8) (x2apic : Bool) : Prop where
  base : i.base = base
  sizeOrder : i.sizeOrder = sizeOrder
  eime : i.eime = x2apic

theorem reads_iff (i : Irta) (base : U64) (sizeOrder : U8) (x2apic : Bool) : i.Reads base sizeOrder x2apic ↔
    (base.toNat % 4096 = 0 ∧ sizeOrder.toNat < 2 ^ 2) ∧ Holds (layout base sizeOrder x2apic) i.value := by
  have hbase : i.base = base ↔ base.toNat % 4096 = 0 ∧ i.value.extractLsb' 12 52 = base.extractLsb' 12 52 :=
    extract_page_iff i.value base
  have hsize : i.sizeOrder = sizeOrder ↔
      sizeOrder.toNat < 2 ^ 2 ∧ i.value.extractLsb' 14 2 = sizeOrder.extractLsb' 0 2 :=
    extractBits_narrow_iff 2 i.value sizeOrder rfl (by decide) (by decide) (by decide)
  have heime : i.eime = x2apic ↔ i.value.extractLsb' 11 1 = BitVec.ofBool x2apic :=
    extractBits_flag i.value (by decide) x2apic
  simp only [layout, holds_cons, holds_nil, and_true, ← heime]
  constructor
  · intro h
    have hb := hbase.mp h.base
    have hs := hsize.mp h.sizeOrder
    exact ⟨⟨hb.1, hs.1⟩, hb.2, hs.2, h.eime⟩
  · intro ⟨⟨halign, hlt⟩, hb, hs, he⟩
    exact ⟨hbase.mpr ⟨halign, hb⟩, hsize.mpr ⟨hlt, hs⟩, he⟩

/-- **When a table's word is read back**: when its base has the size where the size is put. -/
theorem table_reads_iff (base : U64) (sizeOrder : U8) (x2apic : Bool) (hbase : base.toNat % 4096 = 0)
    (hsize : sizeOrder.toNat < 4) : (new base sizeOrder x2apic).Reads base sizeOrder x2apic ↔
      base.extractLsb' 14 2 = sizeOrder.extractLsb' 0 2 := by
  have hlt : sizeOrder.toNat < 2 ^ 2 := hsize
  have hfits : ∀ f ∈ layout base sizeOrder x2apic, f.lo + f.width ≤ 64 := by
    simp [layout]
  rw [reads_iff, and_iff_right ⟨hbase, hlt⟩, new_eq, holds_pack_iff hfits, layout]
  simp (disch := decide) only [List.pairwise_cons, List.forall_mem_cons, List.not_mem_nil, false_imp_iff,
    implies_true, List.Pairwise.nil, agree_of_apart, and_true]
  rw [agree_inner 2 _ _ rfl (by decide), slice_slice base 12 2 (by decide)]

theorem table_reads_own_size : (new 0xdeadc000#64 3#8 true).Reads 0xdeadc000#64 3#8 true :=
  (table_reads_iff 0xdeadc000#64 3#8 true (by decide) (by decide)).mpr (by decide)

/-- With size order 3, the base 0xdead0000 comes back as 0xdeadc000. -/
theorem size_on_base : (new 0xdead0000#64 3#8 true).base = 0xdeadc000#64 ∧
    ¬(new 0xdead0000#64 3#8 true).Reads 0xdead0000#64 3#8 true :=
  ⟨by decide, fun h => absurd h.base (by decide)⟩

end Irta

/-! ### IOTLB invalidation -/

def Iirg.code : Iirg → BitVec 2
  | reserved => 0#2
  | global => 1#2
  | domain => 2#2
  | page => 3#2

namespace IotlbInval

def layout (g : Iirg) (did : U16) (drainReads drainWrites : Bool) : List Field :=
  [⟨60, 2, g.code⟩, ⟨49, 1, BitVec.ofBool drainReads⟩, ⟨48, 1, BitVec.ofBool drainWrites⟩, ⟨32, 16, did⟩]

/-- A flag that is ORed in when it is set. -/
theorem or_flag (v : U64) (lo : Nat) (b : Bool) :
    v ||| place 64 lo (BitVec.ofBool b) = if b then v ||| (1#64 <<< lo) else v := by
  cases b
  · have hclear : place 64 lo (BitVec.ofBool false) = 0#64 := BitVec.zero_shiftLeft lo
    rw [hclear, BitVec.or_zero]
    rfl
  · rfl

theorem new_eq (g : Iirg) (did : U16) (drainReads drainWrites : Bool) :
    (new g did drainReads drainWrites).value = pack 64 (layout g did drainReads drainWrites) := by
  simp only [layout, pack_cons, pack_nil, BitVec.or_zero, ← BitVec.or_assoc]
  rw [or_flag, or_flag]
  cases g <;> rfl

theorem granularity_iff (i : IotlbInval) (g : Iirg) : i.granularity = g ↔ i.value.extractLsb' 60 2 = g.code := by
  have hx : extractBits i.value 61 60 = (i.value.extractLsb' 60 2).setWidth 64 :=
    extractBits_eq i.value (by decide) (by decide)
  rw [granularity, hx]
  generalize i.value.extractLsb' 60 2 = x
  revert x
  cases g <;> decide

/-- A request is read back, with or without its flags. -/
theorem new_reads (g : Iirg) (did : U16) (drainReads drainWrites : Bool) :
    (new g did drainReads drainWrites).granularity = g ∧ (new g did drainReads drainWrites).did = did := by
  have hholds : Holds (layout g did drainReads drainWrites) (new g did drainReads drainWrites).value := by
    rw [new_eq]
    exact holds_pack (of_decide_eq_true rfl)
  simp only [layout, holds_cons, holds_nil, and_true] at hholds
  obtain ⟨hgranularity, -, -, hdid⟩ := hholds
  exact ⟨(granularity_iff _ g).mpr hgranularity, (extractBits_full_iff _ did rfl (by decide) (by decide)).mpr hdid⟩

end IotlbInval

namespace Iva

def layout (addr : U64) (am : U8) : List Field := [⟨12, 52, addr.extractLsb' 12 52⟩, ⟨0, 6, am.extractLsb' 0 6⟩]

theorem new_eq (addr : U64) (am : U8) : (new addr am).value = pack 64 (layout addr am) := by
  simp only [layout, pack_cons, pack_nil, BitVec.or_zero, ← place_and_mask am 0 (show 6 ≤ 8 by decide), place_page,
    place_zero]
  rfl

theorem new_reads (addr : U64) (am : U8) (haddr : addr.toNat % 4096 = 0) (ham : am.toNat < 2 ^ 6) :
    (new addr am).addr = addr ∧ (new addr am).am = am := by
  have hholds : Holds (layout addr am) (new addr am).value := by
    rw [new_eq]
    exact holds_pack (of_decide_eq_true rfl)
  simp only [layout, holds_cons, holds_nil, and_true] at hholds
  obtain ⟨hpage, hmask⟩ := hholds
  exact ⟨(extract_page_iff _ addr).mpr ⟨haddr, hpage⟩,
    (extractBits_narrow_iff 6 _ am rfl (by decide) (by decide) (by decide)).mpr ⟨ham, hmask⟩⟩

end Iva
end Iommu.Intel.Regs
