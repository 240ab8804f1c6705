import Iommu.Logs
import Iommu.Intel.QiCodec
import Iommu.Intel.RegsFields
import Iommu.Amd.CmdPayloads
import Mathlib.Data.List.GetD

/-! Queues of the driver.

The invalidation queue of one crate, whose register says how wide a slot is, and the
command buffer of the other. Both are laid out as a log is, and what the hardware reads in
a slot is told by the command that was put there last (`queues_hold`). -/
namespace Iommu.Queues
open Lib Lib.Word Logs

/-! ### The invalidation queue -/

section Intel
open Intel.Regs Intel.Qi

/-- The words of a slot: two of a narrow queue, four of a wide one. -/
def slotWords (q : Iqa) : Nat := if q.wideDescriptors then 4 else 2

def slotAddr (q : Iqa) (n : U16) : U64 := q.base + (n.setWidth 64 <<< (queueEntryShift + q.wideDescriptors.toNat))

/-- A descriptor as the words of a slot. -/
def slot (q : Iqa) (d : QiDesc) : List U64 :=
  if q.wideDescriptors then [d.words4.w0, d.words4.w1, d.words4.w2, d.words4.w3] else [d.words.w0, d.words.w1]

/-- What is read in a slot: the type, the descriptor when it can be decoded, and the words
past a descriptor of 128 bits. -/
structure Slot where
  ty : QiType
  desc : Option QiDesc
  padding : List U64
  deriving DecidableEq, Repr

def readSlot (ws : List U64) : Slot where
  ty := .fromWord0 (ws.getD 0 0#64)
  desc := QiDesc.fromWords (ws.getD 0 0#64) (ws.getD 1 0#64)
  padding := ws.drop 2

theorem shift_eq_ofNat (n : U16) (k : Nat) : n.setWidth 64 <<< k = BitVec.ofNat 64 (2 ^ k * n.toNat) := by
  apply BitVec.eq_of_toNat_eq
  have hn : (n.setWidth 64).toNat = n.toNat := BitVec.toNat_setWidth_of_le (by decide)
  rw [BitVec.toNat_shiftLeft, hn, Nat.shiftLeft_eq, Nat.mul_comm, BitVec.toNat_ofNat]

/-- The invalidation queue that a register names. -/
def descQueue (q : Iqa) : Log 64 QiDesc Slot where
  entryAddr n := .returns (slotAddr q n)
  bytes := slotWords q * 8
  size := slotWords q
  encode d i := (slot q d).getD i 0#64
  decode ws := readSlot (List.ofFn ws)
  start := q.base
  entryAddr_eq n := by
    rw [slotAddr, slotWords, shift_eq_ofNat]
    cases q.wideDescriptors <;> rfl
  bytes_le := by
    rw [slotWords]
    split <;> exact Nat.le_of_ble_eq_true rfl
  width_pos := Nat.le_add_left 1 7
  size_eq := rfl

/-- A wait as the driver builds it. -/
def BuiltWait (d : QiDesc) : Prop :=
  d = .wait .newFence ∨ ∃ addr data, d = .wait (.newStatusWrite addr data)

theorem BuiltWait.fits {d : QiDesc} (h : BuiltWait d) : d.Fits := by
  rcases h with rfl | ⟨addr, data, rfl⟩
  · rfl
  · show (addr &&& ~~~0x7#64).toNat % 8 = 0
    rw [← place_status, toNat_place 3 _ (by decide)]
    exact Nat.mul_mod_left _ _

/-- What a slot delivers of the descriptor in it. -/
structure Delivers (q : Iqa) (d : QiDesc) (s : Slot) : Prop where
  /-- It is told by its type when the slot has room for it, but for a global one. -/
  ty : s.ty = d.ty ↔ 2 * d.slotCount ≤ slotWords q ∧ ∀ p, d = .pasidDevTlb p → p.global = false
  desc : d.Fits ∨ BuiltWait d → s.desc = some d
  undecoded : ∀ p, d = .pasidDevTlb p → s.desc = none
  padding : d.slotCount = 1 → s.padding = List.replicate (slotWords q - 2) 0#64

theorem length_slot (q : Iqa) (d : QiDesc) : (slot q d).length = slotWords q := by
  rw [slot, slotWords]
  split <;> rfl

/-- A list is listed by its own places. -/
theorem ofFn_getD {A : Type} (l : List A) (a : A) {n : Nat} (h : l.length = n) :
    List.ofFn (fun i : Fin n => l.getD i a) = l := by
  subst h
  apply List.ext_getElem (List.length_ofFn)
  intro i hi hl
  rw [List.getElem_ofFn]
  exact List.getD_eq_getElem l a hl

/-- A descriptor of 128 bits is padded to 256. -/
theorem words4_of_slot {d : QiDesc} (h : d.slotCount = 1) : d.words4 = ⟨d.words.w0, d.words.w1, 0#64, 0#64⟩ := by
  cases d with
  | pasidDevTlb p => exact absurd h (by decide : 2 ≠ 1)
  | _ => rfl

theorem readSlot_of_slot (q : Iqa) {d : QiDesc} (h : d.slotCount = 1) : readSlot (slot q d) =
      ⟨.fromWord0 d.words.w0, QiDesc.fromWords d.words.w0 d.words.w1, List.replicate (slotWords q - 2) 0#64⟩ := by
  rw [slot, words4_of_slot h, slotWords]
  cases q.wideDescriptors <;> rfl

theorem fromWord0_of_slot {d : QiDesc} (h : d.slotCount = 1) : QiType.fromWord0 d.words.w0 = d.ty := by
  have hd : ∀ p, d ≠ .pasidDevTlb p := by
    rintro p rfl
    exact absurd h (by decide : 2 ≠ 1)
  rw [d.words_eq hd]
  exact fromWord0_pack d.ty _ d.ty_lt (d.layout_fitting .w0)

theorem delivers_of_slot (q : Iqa) {d : QiDesc} (h : d.slotCount = 1) : Delivers q d (readSlot (slot q d)) := by
  have hd : ∀ p, d ≠ .pasidDevTlb p := by
    rintro p rfl
    exact absurd h (by decide : 2 ≠ 1)
  have hroom : 2 * d.slotCount ≤ slotWords q := by
    rw [h, slotWords]
    split <;> exact Nat.le_of_ble_eq_true rfl
  rw [readSlot_of_slot q h]
  exact {
    ty := iff_of_true (fromWord0_of_slot h) ⟨hroom, fun p hp => absurd hp (hd p)⟩
    desc := fun hfits => QiDesc.fromWords_of_fits (hfits.elim id BuiltWait.fits)
    undecoded := fun p hp => absurd hp (hd p)
    padding := fun _ => rfl }

/-- The type of a device-TLB descriptor is not one that is decoded. -/
theorem fromWords_of_readType (p : QiDevPiotlb) : QiDesc.fromWords p.toWords4.w0 p.toWords4.w1 = none := by
  rw [QiDesc.fromWords, p.readType]
  cases p.global <;> rfl

theorem delivers_devTlb (q : Iqa) (p : QiDevPiotlb) :
    Delivers q (.pasidDevTlb p) (readSlot (slot q (.pasidDevTlb p))) := by
  have hcount : (QiDesc.pasidDevTlb p).slotCount = 2 := rfl
  have hunfit : ¬((QiDesc.pasidDevTlb p).Fits ∨ BuiltWait (.pasidDevTlb p)) :=
    fun h => h.elim id BuiltWait.fits
  cases hwide : q.wideDescriptors with
  | true =>
    have hslot : slot q (.pasidDevTlb p) = [p.toWords4.w0, p.toWords4.w1, p.toWords4.w2, p.toWords4.w3] := by
      rw [slot, hwide]
      rfl
    have hread : QiType.fromWord0 p.toWords4.w0 = QiType.pasidDeviceTlb ↔ p.global = false := by
      rw [p.readType]
      cases p.global <;> decide
    rw [hslot]
    refine ⟨?_, fun hfits => absurd hfits hunfit, fun _ _ => fromWords_of_readType p,
      fun h => absurd (hcount.symm.trans h) (by decide)⟩
    refine hread.trans ⟨fun hglobal => ⟨?_, ?_⟩, fun h => h.2 p rfl⟩
    · rw [hcount, slotWords, hwide]
      exact Nat.le_refl 4
    · rintro p' ⟨⟩
      exact hglobal
  | false =>
    have hslot : slot q (.pasidDevTlb p) = [0#64, 0#64] := by
      rw [slot, hwide]
      rfl
    have hnone : QiDesc.fromWords 0#64 0#64 = none := by decide
    have htype : QiType.fromWord0 0#64 ≠ .pasidDeviceTlb := by decide
    rw [hslot]
    refine ⟨iff_of_false htype fun h => ?_, fun hfits => absurd hfits hunfit, fun _ _ => hnone,
      fun h => absurd (hcount.symm.trans h) (by decide)⟩
    have hroom := h.1
    rw [hcount, slotWords, hwide] at hroom
    exact absurd hroom (by decide)

theorem delivers (q : Iqa) (d : QiDesc) : Delivers q d (readSlot (slot q d)) := by
  cases d with
  | pasidDevTlb p => exact delivers_devTlb q p
  | _ => exact delivers_of_slot q rfl

end Intel

/-! ### The command buffer -/

section Amd
open Amd.Regs Amd.Cmd

/-- The command buffer of a base register: an entry is read as its opcode and its dwords. -/
def commandBuffer (b : BufferBase) : Log 32 Command (Opcode × Dwords) :=
  bufferLog b Command.words fun ws => (.fromDword1 ws.d1, ws)

/-- A call of any setter of a completion wait. -/
inductive WaitCall where
  | store (addr data : U64)
  | flush
  | interrupt

def WaitCall.apply (c : CompletionWait) : WaitCall → CompletionWait
  | store addr data => c.withStore addr data
  | flush => c.withFlush
  | interrupt => c.withInterrupt

def buildWait (calls : List WaitCall) : CompletionWait := calls.foldl WaitCall.apply .new

/-- What the dwords of a wait tell of the calls that it was built with: which were made,
and the store that was asked for last. -/
structure WaitTold (calls : List WaitCall) (ws : Dwords) : Prop where
  store : ws.d0.extractLsb' 0 1 = 1#1 ↔ ∃ addr data, .store addr data ∈ calls
  interrupt : ws.d0.extractLsb' 1 1 = 1#1 ↔ .interrupt ∈ calls
  flush : ws.d0.extractLsb' 2 1 = 1#1 ↔ .flush ∈ calls
  last : ∀ addr data pre post, calls = pre ++ .store addr data :: post → (∀ a d, .store a d ∉ post) →
    ws.d0.extractLsb' 3 29 = addr.extractLsb' 3 29 ∧ ws.d1.extractLsb' 0 20 = addr.extractLsb' 32 20 ∧
      ws.d2 = data.extractLsb' 0 32 ∧ ws.d3 = data.extractLsb' 32 32

/-- What is received of a command: the dwords, the opcode of all but one kind, and of a
wait what it was built with. -/
structure Received (c : Command) (s : Opcode × Dwords) : Prop where
  opcode : s.1 = c.opcode ↔ ∀ e, c ≠ .invalidateInterruptTable e
  words : s.2 = c.words
  wait : ∀ calls, c = .completionWait (buildWait calls) → WaitTold calls s.2

/-- A flag is set once and for all. -/
theorem foldl_flag (get : CompletionWait → Bool) (sets : WaitCall → Prop)
    (hget : ∀ c call, get (call.apply c) = true ↔ get c = true ∨ sets call) (calls : List WaitCall)
    (c : CompletionWait) : get (calls.foldl WaitCall.apply c) = true ↔ get c = true ∨ ∃ call ∈ calls, sets call := by
  induction calls generalizing c with
  | nil => simp only [List.foldl_nil, List.not_mem_nil, false_and, exists_false, or_false]
  | cons call calls ih => rw [List.foldl_cons, ih, hget, List.exists_mem_cons_iff, or_assoc]

/-- A store is kept until the next one. -/
theorem foldl_store (calls : List WaitCall) (h : ∀ a d, .store a d ∉ calls) (c : CompletionWait) :
    (calls.foldl WaitCall.apply c).storeAddr = c.storeAddr ∧
      (calls.foldl WaitCall.apply c).storeData = c.storeData := by
  induction calls generalizing c with
  | nil => exact ⟨rfl, rfl⟩
  | cons call calls ih =>
    have hrest := ih fun a d hmem => h a d (List.mem_cons_of_mem call hmem)
    cases call with
    | store a d => exact absurd List.mem_cons_self (h a d)
    | flush => exact hrest c.withFlush
    | interrupt => exact hrest c.withInterrupt

theorem buildWait_store (calls : List WaitCall) :
    (buildWait calls).store = true ↔ ∃ addr data, .store addr data ∈ calls := by
  have hget : ∀ (c : CompletionWait) (call : WaitCall),
      (call.apply c).store = true ↔ c.store = true ∨ ∃ addr data, call = .store addr data := by
    intro c call
    cases call with
    | store a d => exact iff_of_true rfl (.inr ⟨a, d, rfl⟩)
    | flush => simp [WaitCall.apply, CompletionWait.withFlush]
    | interrupt => simp [WaitCall.apply, CompletionWait.withInterrupt]
  rw [buildWait, foldl_flag _ _ hget]
  constructor
  · rintro (hnew | ⟨_, hmem, addr, data, rfl⟩)
    · exact absurd hnew Bool.false_ne_true
    · exact ⟨addr, data, hmem⟩
  · rintro ⟨addr, data, hmem⟩
    exact .inr ⟨_, hmem, addr, data, rfl⟩

theorem buildWait_interrupt (calls : List WaitCall) : (buildWait calls).interrupt = true ↔ .interrupt ∈ calls := by
  have hget : ∀ (c : CompletionWait) (call : WaitCall),
      (call.apply c).interrupt = true ↔ c.interrupt = true ∨ call = .interrupt := by
    intro c call
    cases call <;>
      simp [WaitCall.apply, CompletionWait.withStore, CompletionWait.withFlush, CompletionWait.withInterrupt]
  rw [buildWait, foldl_flag _ _ hget, exists_eq_right]
  exact or_iff_right Bool.false_ne_true

theorem buildWait_flush (calls : List WaitCall) : (buildWait calls).flush = true ↔ .flush ∈ calls := by
  have hget : ∀ (c : CompletionWait) (call : WaitCall),
      (call.apply c).flush = true ↔ c.flush = true ∨ call = .flush := by
    intro c call
    cases call <;>
      simp [WaitCall.apply, CompletionWait.withStore, CompletionWait.withFlush, CompletionWait.withInterrupt]
  rw [buildWait, foldl_flag _ _ hget, exists_eq_right]
  exact or_iff_right Bool.false_ne_true

theorem slice_aligned (x : U64) (d n : Nat) (h : 3 + d + n ≤ 64) :
    (x &&& ~~~0x7#64).extractLsb' (3 + d) n = x.extractLsb' (3 + d) n := by
  have hmask : ~~~0x7#64 = mask 64 3 61 := rfl
  rw [hmask, and_mask, slice_place_within 3 d _ h, slice_slice x 3 d (by omega)]

theorem ofBool_eq_one (b : Bool) : BitVec.ofBool b = 1#1 ↔ b = true := by
  cases b <;> decide

theorem buildWait_told (calls : List WaitCall) : WaitTold calls (buildWait calls).encode := by
  have hd0 := holds_pack ((buildWait calls).layout_fitting .d0)
  have hd1 := holds_pack ((buildWait calls).layout_fitting .d1)
  have hd2 := holds_pack ((buildWait calls).layout_fitting .d2)
  have hd3 := holds_pack ((buildWait calls).layout_fitting .d3)
  rw [(buildWait calls).encode_eq]
  generalize pack 32 ((buildWait calls).layout .d0) = d0 at hd0 ⊢
  generalize pack 32 ((buildWait calls).layout .d1) = d1 at hd1 ⊢
  generalize pack 32 ((buildWait calls).layout .d2) = d2 at hd2 ⊢
  generalize pack 32 ((buildWait calls).layout .d3) = d3 at hd3 ⊢
  simp only [CompletionWait.layout, holds_cons, holds_nil, and_true, BitVec.extractLsb'_eq_self] at hd0 hd1 hd2 hd3
  obtain ⟨hstore, hinterrupt, hflush, hlow⟩ := hd0
  refine ⟨?_, ?_, ?_, ?_⟩
  · rw [hstore, ofBool_eq_one, buildWait_store]
  · rw [hinterrupt, ofBool_eq_one, buildWait_interrupt]
  · rw [hflush, ofBool_eq_one, buildWait_flush]
  · rintro addr data pre post rfl hpost
    obtain ⟨haddr, hdata⟩ := foldl_store post hpost ((buildWait pre).withStore addr data)
    have hbuilt : buildWait (pre ++ .store addr data :: post) =
        post.foldl WaitCall.apply ((buildWait pre).withStore addr data) := by
      rw [buildWait, List.foldl_append, List.foldl_cons]
      rfl
    rw [hbuilt, haddr] at hlow hd1
    rw [hbuilt, hdata] at hd2 hd3
    exact ⟨hlow.trans (slice_aligned addr 0 29 (by decide)), hd1.2.trans (slice_aligned addr 29 20 (by decide)),
      hd2, hd3⟩

theorem received (c : Command) : Received c (Opcode.fromDword1 c.words.d1, c.words) where
  opcode := readOpcode_agrees_iff c
  words := rfl
  wait calls := by
    rintro rfl
    exact buildWait_told calls

end Amd

open Intel.Regs Amd.Regs in
/-- **Queues deliver what is put in them**: after any commands were put, in any order and at
any numbers, the slot of each number delivers the one that was put there last, in a queue
of either width and in a command buffer, and nothing else is written. -/
theorem queues_hold :
    (∀ base wide, (Iqa.new base wide).base = base &&& ~~~0xfff#64 ∧ (Iqa.new base wide).wideDescriptors = wide) ∧
    (∀ q mem entries, ∃ after, (descQueue q).putAll mem entries = .returns after ∧
      (descQueue q).Holds mem after entries ∧
      ∀ n d, Log.LastPut n d entries → ∃ s, (descQueue q).get after n = .returns s ∧ Delivers q d s) ∧
    (∀ b mem entries, ∃ after, (commandBuffer b).putAll mem entries = .returns after ∧
      (commandBuffer b).Holds mem after entries ∧
      ∀ n c, Log.LastPut n c entries → ∃ s, (commandBuffer b).get after n = .returns s ∧ Received c s) := by
  refine ⟨Iqa.new_reads, fun q mem entries => ?_, fun b mem entries => ?_⟩
  · obtain ⟨after, hafter, hholds⟩ := (descQueue q).holds mem entries
    refine ⟨after, hafter, hholds, fun n d hlast => ⟨readSlot (slot q d), ?_, delivers q d⟩⟩
    have hslot : List.ofFn ((descQueue q).encode d) = slot q d := ofFn_getD (slot q d) 0#64 (length_slot q d)
    exact (hholds.last n d hlast).trans (congrArg (fun ws => Exec.returns (readSlot ws)) hslot)
  · obtain ⟨after, hafter, hholds⟩ := (commandBuffer b).holds mem entries
    exact ⟨after, hafter, hholds, fun n c hlast => ⟨_, hholds.last n c hlast, received c⟩⟩

end Iommu.Queues
