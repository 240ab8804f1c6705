import Iommu.Intel.ContextFields

/-! A PASID table entry in the numbering of its documentation.

The documentation numbers the bits of an entry from 0 to 511, and the accessors read
them from eight qwords. Those of the first four read the bits that they are documented
to. Those of the host page tables read one qword too high, and two of them meet: what
they read is as documented only by chance of the entry, and never apart
(`documented_never`). -/
namespace Iommu.Intel.Context.PasidTableEntry
open Lib Lib.Word

/-- The bytes of an entry as one integer. -/
def asNat (e : PasidTableEntry) : Nat :=
  match e.intoBytes with
  | .returns bytes => leNat bytes
  | .panics _ => 0

theorem asNat_eq (e : PasidTableEntry) : e.asNat = leNat (e.qwords.flatMap u64ToLe) := by
  rw [asNat, intoBytes_eq]

/-- Every accessor reads the entry bits that are documented for it. -/
structure Documented (e : PasidTableEntry) : Prop where
  present : e.present = e.asNat.testBit 0
  faultDisable : e.faultDisable = e.asNat.testBit 1
  pgtt : e.pgtt = .fromBits (BitVec.ofNat 8 (bitRange e.asNat 8 6))
  ssAccessedDirty : e.ssAccessedDirty = e.asNat.testBit 9
  domainId : e.domainId.toNat = bitRange e.asNat 79 64
  pageSnoop : e.pageSnoop = e.asNat.testBit 88
  cacheDisable : e.cacheDisable = e.asNat.testBit 89
  supervisorRequests : e.supervisorRequests = e.asNat.testBit 128
  flpm : e.flpm = .fromBits (BitVec.ofNat 8 (bitRange e.asNat 131 130))
  writeProtectEnable : e.writeProtectEnable = e.asNat.testBit 132
  extAccessedFlag : e.extAccessedFlag = e.asNat.testBit 135
  hptSize : e.hptSize.toNat = bitRange e.asNat 257 256
  hptDomainId : e.hptDomainId.toNat = bitRange e.asNat 335 320

/-- An access that tells the entry from one with no other bit changed. -/
def Reads {α : Type} (access : PasidTableEntry → α) (e : PasidTableEntry) (b : Nat) : Prop :=
  ∃ e', (∀ i, i ≠ b → e'.asNat.testBit i = e.asNat.testBit i) ∧ access e' ≠ access e

/-- No bit is read by two of the accessors of the host page tables. -/
def HptDisjoint (e : PasidTableEntry) : Prop :=
  ∀ b, ¬(Reads hptSize e b ∧ Reads hptDomainId e b) ∧ ¬(Reads hptSize e b ∧ Reads hptRootRaw e b) ∧
    ¬(Reads hptDomainId e b ∧ Reads hptRootRaw e b)

/-! ### Entry bits -/

/-- A bit of the entry is one of its qwords'. -/
theorem testBit_asNat (e : PasidTableEntry) (k i : Nat) (hi : i < 64) :
    e.asNat.testBit (64 * k + i) = (e.qwords.getD k 0#64).getLsbD i := by
  rw [asNat_eq, testBit_leNat e.qwords k i hi]

theorem bitRange_asNat (e : PasidTableEntry) (k lo n : Nat) {hi off : Nat} (hoff : 64 * k + lo = off)
    (hhi : off + n = hi + 1) (hn : lo + n ≤ 64) :
    bitRange e.asNat hi off = ((e.qwords.getD k 0#64).extractLsb' lo n).toNat := by
  rw [asNat_eq, bitRange_leNat e.qwords k lo n hoff hhi hn]

theorem flag_documented (e : PasidTableEntry) (k i : Nat) {b : Nat} (hb : 64 * k + i = b) (hi : i < 64) :
    (e.qwords.getD k 0#64 &&& (1#64 <<< i) != 0#64) = e.asNat.testBit b := by
  rw [flag_eq, ← hb, testBit_asNat e k i hi]

/-- A code in three bits or fewer. -/
theorem code_documented (e : PasidTableEntry) (k lo n : Nat) {hi off : Nat} (hoff : 64 * k + lo = off)
    (hhi : off + n = hi + 1) (hn : lo + n ≤ 64) (hpos : 0 < n) :
    (extractBits (e.qwords.getD k 0#64) (lo + n - 1) lo).setWidth 8 = BitVec.ofNat 8 (bitRange e.asNat hi off) := by
  rw [bitRange_asNat e k lo n hoff hhi hn, BitVec.ofNat_toNat,
    setWidth_extractBits n (e.qwords.getD k 0#64) (by omega) hpos (by omega)]

/-- What has to be so by chance: the qwords read agree with the ones below them. -/
theorem documented_iff (e : PasidTableEntry) : e.Documented ↔
    e.hpt.w1.extractLsb' 0 2 = e.hpt.w0.extractLsb' 0 2 ∧ e.hpt.w2.extractLsb' 0 16 = e.hpt.w1.extractLsb' 0 16 := by
  have hsize : bitRange e.asNat 257 256 = (e.hpt.w0.extractLsb' 0 2).toNat :=
    bitRange_asNat e 4 0 2 rfl rfl (by decide)
  have hdomain : bitRange e.asNat 335 320 = (e.hpt.w1.extractLsb' 0 16).toNat :=
    bitRange_asNat e 5 0 16 rfl rfl (by decide)
  have hread : e.hptSize.toNat = (e.hpt.w1.extractLsb' 0 2).toNat := by
    rw [hptSize, setWidth_extractBits 2 e.hpt.w1 rfl (by decide) (by decide), BitVec.toNat_setWidth_of_le (by decide)]
  have hread' : e.hptDomainId = e.hpt.w2.extractLsb' 0 16 := setWidth_eq_slice 16 e.hpt.w2
  constructor
  · intro h
    have hs := h.hptSize
    have hd := h.hptDomainId
    rw [hread, hsize] at hs
    rw [hread', hdomain] at hd
    exact ⟨BitVec.eq_of_toNat_eq hs, BitVec.eq_of_toNat_eq hd⟩
  · intro ⟨hs, hd⟩
    exact {
      present := flag_documented e 0 0 rfl (by decide)
      faultDisable := flag_documented e 0 1 rfl (by decide)
      pgtt := congrArg Pgtt.fromBits (code_documented e 0 6 3 rfl rfl (by decide) (by decide))
      ssAccessedDirty := flag_documented e 0 9 rfl (by decide)
      domainId := by
        rw [bitRange_asNat e 1 0 16 rfl rfl (by decide), ← setWidth_eq_slice]
        rfl
      pageSnoop := flag_documented e 1 24 rfl (by decide)
      cacheDisable := flag_documented e 1 25 rfl (by decide)
      supervisorRequests := flag_documented e 2 0 rfl (by decide)
      flpm := congrArg Flpm.fromBits (code_documented e 2 2 2 rfl rfl (by decide) (by decide))
      writeProtectEnable := flag_documented e 2 4 rfl (by decide)
      extAccessedFlag := flag_documented e 2 7 rfl (by decide)
      hptSize := by rw [hread, hsize, hs]
      hptDomainId := by rw [hread', hdomain, hd] }

/-! ### Bits that two accessors read -/

/-- The entry with bit 384 flipped, the lowest of `hpt[2]`. -/
def flipped (e : PasidTableEntry) : PasidTableEntry := { e with hpt := { e.hpt with w2 := e.hpt.w2 ^^^ 1#64 } }

theorem testBit_flipped (e : PasidTableEntry) (b : Nat) (hb : b ≠ 384) :
    e.flipped.asNat.testBit b = e.asNat.testBit b := by
  have hsplit : 64 * (b / 64) + b % 64 = b := Nat.div_add_mod b 64
  have hlt : b % 64 < 64 := Nat.mod_lt b (by decide)
  have hset : e.flipped.qwords = e.qwords.set 6 (e.hpt.w2 ^^^ 1#64) := rfl
  rw [← hsplit, testBit_asNat _ _ _ hlt, testBit_asNat _ _ _ hlt, hset, List.getD_eq_getElem?_getD,
    List.getD_eq_getElem?_getD, List.getElem?_set]
  split
  case isTrue hk =>
    have hbit : b % 64 ≠ 0 := by omega
    have hone : (1#64).getLsbD (b % 64) = false := by
      rw [BitVec.getLsbD_one]
      simp only [hbit, decide_false, Bool.and_false]
    have hthere : e.qwords[6]? = some e.hpt.w2 := rfl
    have hlen : 6 < e.qwords.length := Nat.le_succ 7
    rw [← hk, hthere, if_pos hlen, Option.getD_some, Option.getD_some, BitVec.getLsbD_xor, hone, Bool.xor_false]
  case isFalse => rfl

/-- Bit 384 is read as part of the domain id and of the root pointer. -/
theorem hpt_meet (e : PasidTableEntry) : Reads hptDomainId e 384 ∧ Reads hptRootRaw e 384 := by
  have hne : (e.hpt.w2 ^^^ 1#64).getLsbD 0 ≠ e.hpt.w2.getLsbD 0 := by
    rw [BitVec.getLsbD_xor]
    cases e.hpt.w2.getLsbD 0 <;> decide
  refine ⟨⟨e.flipped, e.testBit_flipped, fun h => ?_⟩, ⟨e.flipped, e.testBit_flipped, fun h => ?_⟩⟩
  · have hbit : (e.flipped.hptDomainId).getLsbD 0 = e.hptDomainId.getLsbD 0 := by rw [h]
    simp only [hptDomainId, BitVec.getLsbD_setWidth, Nat.zero_lt_succ, decide_true, Bool.true_and] at hbit
    exact hne hbit
  · have hbit : (e.flipped.hptRootRaw.2).getLsbD 0 = e.hptRootRaw.2.getLsbD 0 := by rw [h]
    have hmask : (0xfff#64).getLsbD 0 = true := rfl
    simp only [hptRootRaw, BitVec.getLsbD_and, hmask, Bool.and_true] at hbit
    exact hne hbit

theorem not_hptDisjoint (e : PasidTableEntry) : ¬e.HptDisjoint := fun h => (h 384).2.2 e.hpt_meet

/-- **No entry is read as documented**: the bits are as documented exactly when the two
fields of the host page tables repeat what is one qword below, and on no entry do their
accessors keep apart. -/
theorem documented_never (e : PasidTableEntry) :
    ¬(e.Documented ∧ e.HptDisjoint) ∧ ¬e.HptDisjoint ∧
      (e.Documented ↔ e.hpt.w1.extractLsb' 0 2 = e.hpt.w0.extractLsb' 0 2 ∧
        e.hpt.w2.extractLsb' 0 16 = e.hpt.w1.extractLsb' 0 16) :=
  ⟨fun h => e.not_hptDisjoint h.2, e.not_hptDisjoint, e.documented_iff⟩

/-- The entry with host page table size 1 and domain id 7 where they are documented. -/
def hostTables : PasidTableEntry := { new with hpt := ⟨1#64, 7#64, 0#64, 0#64⟩ }

/-- Its size is read as 3, and its domain id as 0. -/
theorem hostTables_misread : bitRange hostTables.asNat 257 256 = 1 ∧ bitRange hostTables.asNat 335 320 = 7 ∧
    hostTables.hptSize = 3#8 ∧ hostTables.hptDomainId = 0#16 ∧ ¬hostTables.Documented ∧ ¬hostTables.HptDisjoint := by
  refine ⟨bitRange_asNat hostTables 4 0 2 rfl rfl (by decide), bitRange_asNat hostTables 5 0 16 rfl rfl (by decide),
    rfl, rfl, fun h => ?_, hostTables.not_hptDisjoint⟩
  exact absurd ((documented_iff hostTables).mp h).1 (by decide)

end Iommu.Intel.Context.PasidTableEntry
