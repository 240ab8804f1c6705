import Iommu.Intel.RegsFields

/-! One request, two interfaces.

A context-cache and an IOTLB invalidation can be asked for through registers or through
the queue. Both lay out the same fields, each its own way, and what a consumer reads back
is compared here for every request: they describe the same one, which is the one that was
asked for, exactly when the function mask is the low bits of the source id. -/
namespace Iommu.Intel.Regs
open Lib Lib.Word Qi

/-! ### Granularities -/

def Cirg.ofQi : Granularity → Cirg
  | .reserved => .reserved
  | .global => .global
  | .domain => .domain
  | .pageOrDevice => .device

def Iirg.ofQi : Granularity → Iirg
  | .reserved => .reserved
  | .global => .global
  | .domain => .domain
  | .pageOrDevice => .page

/-! ### Requests -/

/-- What both interfaces are asked for, with each field in its range. -/
structure Request where
  granularity : Granularity
  did : U16
  sid : U16
  fm : U8
  addr : U64
  am : U8
  drainReads : Bool
  drainWrites : Bool
  fm_lt : fm.toNat < 4
  addr_aligned : addr.toNat % 4096 = 0
  am_lt : am.toNat < 64

namespace Request
variable (r : Request)

def ccmd : Ccmd := .new (.ofQi r.granularity) r.did r.sid r.fm

def iotlbInval : IotlbInval := .new (.ofQi r.granularity) r.did r.drainReads r.drainWrites

def iva : Iva := .new r.addr r.am

/-- The context-cache descriptor as it is read from its words. -/
def queuedCc : QiCc :=
  let words := (QiCc.new r.granularity r.did r.sid r.fm).toWords
  .fromWords words.w0 words.w1

/-- The IOTLB descriptor as it is read from its words. -/
def queuedIotlb : QiIotlb :=
  let words := (QiIotlb.new r.granularity r.did r.addr r.am).toWords
  .fromWords words.w0 words.w1

/-- A context command and its descriptor read the same, as it was asked for. -/
structure ContextAlike : Prop where
  granularity : r.ccmd.granularity = .ofQi r.queuedCc.granularity ∧ r.queuedCc.granularity = r.granularity
  did : r.ccmd.did = r.queuedCc.did ∧ r.queuedCc.did = r.did
  sid : r.ccmd.sid = r.queuedCc.sid ∧ r.queuedCc.sid = r.sid
  fm : r.ccmd.fm = r.queuedCc.fm ∧ r.queuedCc.fm = r.fm

/-- The words of an IOTLB invalidation and its descriptor do. -/
structure IotlbAlike : Prop where
  granularity : r.iotlbInval.granularity = .ofQi r.queuedIotlb.granularity ∧
    r.queuedIotlb.granularity = r.granularity
  did : r.iotlbInval.did = r.queuedIotlb.did ∧ r.queuedIotlb.did = r.did
  addr : r.iva.addr = r.queuedIotlb.addr ∧ r.queuedIotlb.addr = r.addr
  am : r.iva.am = r.queuedIotlb.am ∧ r.queuedIotlb.am = r.am

/-! ### The queue -/

theorem queuedCc_eq : r.queuedCc = .new r.granularity r.did r.sid r.fm :=
  QiDesc.decodes_of_fits (d := .contextCache (.new r.granularity r.did r.sid r.fm)) r.fm_lt

theorem queuedIotlb_eq : r.queuedIotlb = .new r.granularity r.did r.addr r.am :=
  QiDesc.decodes_of_fits (d := .iotlb (.new r.granularity r.did r.addr r.am)) ⟨r.addr_aligned, r.am_lt⟩

/-! ### The registers -/

theorem contextAlike_iff : r.ContextAlike ↔ r.sid.extractLsb' 0 2 = r.fm.extractLsb' 0 2 := by
  rw [← Ccmd.new_reads_iff (.ofQi r.granularity) r.did r.sid r.fm r.fm_lt]
  constructor
  · intro h
    exact {
      granularity := h.granularity.1.trans (congrArg Cirg.ofQi h.granularity.2)
      did := h.did.1.trans h.did.2
      sid := h.sid.1.trans h.sid.2
      fm := h.fm.1.trans h.fm.2 }
  · intro h
    have hq := r.queuedCc_eq
    exact {
      granularity := by rw [hq]; exact ⟨h.granularity, rfl⟩
      did := by rw [hq]; exact ⟨h.did, rfl⟩
      sid := by rw [hq]; exact ⟨h.sid, rfl⟩
      fm := by rw [hq]; exact ⟨h.fm, rfl⟩ }

theorem iotlbAlike : r.IotlbAlike := by
  have hq := r.queuedIotlb_eq
  obtain ⟨hgranularity, hdid⟩ := IotlbInval.new_reads (.ofQi r.granularity) r.did r.drainReads r.drainWrites
  obtain ⟨haddr, ham⟩ := Iva.new_reads r.addr r.am r.addr_aligned r.am_lt
  exact {
    granularity := by rw [hq]; exact ⟨hgranularity, rfl⟩
    did := by rw [hq]; exact ⟨hdid, rfl⟩
    addr := by rw [hq]; exact ⟨haddr, rfl⟩
    am := by rw [hq]; exact ⟨ham, rfl⟩ }

/-- **When both interfaces describe the same request**: when its function mask is the low
bits of its source id. -/
theorem alike_iff : r.ContextAlike ∧ r.IotlbAlike ↔ r.sid.extractLsb' 0 2 = r.fm.extractLsb' 0 2 := by
  rw [contextAlike_iff]
  exact and_iff_left r.iotlbAlike

/-- With function mask 3, source id 0xfffc is read from the register as 0xffff. -/
theorem mask_on_source : ∃ r : Request, r.granularity = .pageOrDevice ∧ r.did = 0x1234#16 ∧ r.sid = 0xfffc#16 ∧
    r.fm = 3#8 ∧ r.ccmd.sid = 0xffff#16 ∧ ¬(r.ContextAlike ∧ r.IotlbAlike) := by
  let r : Request :=
    ⟨.pageOrDevice, 0x1234#16, 0xfffc#16, 3#8, 0#64, 0#8, false, false, by decide, by decide, by decide⟩
  have hread : r.ccmd.sid = 0xffff#16 := by decide
  refine ⟨r, rfl, rfl, rfl, rfl, hread, fun h => ?_⟩
  have hsid : r.ccmd.sid = 0xfffc#16 := h.1.sid.1.trans h.1.sid.2
  rw [hread] at hsid
  exact absurd hsid (by decide)

end Request
end Iommu.Intel.Regs
