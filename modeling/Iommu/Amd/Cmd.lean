import Iommu.Bits

/-! Command buffer entries (`amd-iommu/src/cmd.rs`).

Every command shares the top nibble of dword 1 with its opcode. The `encode`
functions are first read as fields in place (`*_layout`); what a consumer reads
of the opcode then follows, and one command reads as another. -/
namespace Iommu.Amd.Cmd
open Lib

structure Opcode where
  value : U8
  deriving DecidableEq, Repr

namespace Opcode

def completionWait : Opcode := ⟨0x01#8⟩
def invalidateDevtabEntry : Opcode := ⟨0x02#8⟩
def invalidateIommuPages : Opcode := ⟨0x03#8⟩
def invalidateIotlbPages : Opcode := ⟨0x04#8⟩
def invalidateInterruptTable : Opcode := ⟨0x05#8⟩
def completePprRequest : Opcode := ⟨0x07#8⟩
def invalidateIommuAll : Opcode := ⟨0x08#8⟩

def fromDword1 (d : U32) : Opcode := ⟨(d >>> 28).setWidth 8⟩

end Opcode

/-! ### Payloads -/

structure CompletionWait where
  store : Bool
  interrupt : Bool
  flush : Bool
  storeAddr : U64
  storeData : U64
  deriving DecidableEq, Repr

namespace CompletionWait

def new : CompletionWait := ⟨false, false, false, 0#64, 0#64⟩

def withStore (c : CompletionWait) (addr data : U64) : CompletionWait :=
  { c with store := true, storeAddr := addr &&& ~~~0x7#64, storeData := data }

def withFlush (c : CompletionWait) : CompletionWait := { c with flush := true }

def withInterrupt (c : CompletionWait) : CompletionWait := { c with interrupt := true }

end CompletionWait

def CompletionWait.encode (c : CompletionWait) : Dwords :=
  let d0 := boolAs 32 c.store ||| (boolAs 32 c.interrupt <<< 1) ||| (boolAs 32 c.flush <<< 2) |||
    (((c.storeAddr >>> 3).setWidth 32 &&& 0x1fffffff#32) <<< 3)
  let d1 := (Opcode.completionWait.value.setWidth 32 <<< 28) |||
    ((c.storeAddr >>> 32).setWidth 32 &&& 0xfffff#32)
  ⟨d0, d1, c.storeData.setWidth 32, (c.storeData >>> 32).setWidth 32⟩

structure InvalidateDevTabEntry where
  deviceId : U16
  deriving DecidableEq, Repr

def InvalidateDevTabEntry.encode (c : InvalidateDevTabEntry) : U32 × U32 :=
  (c.deviceId.setWidth 32, Opcode.invalidateDevtabEntry.value.setWidth 32 <<< 28)

structure InvalidateIommuPages where
  domainId : U16
  pasid : U32
  addr : U64
  size : Bool
  pde : Bool
  guestNested : Bool
  deriving DecidableEq, Repr

def InvalidateIommuPages.encode (c : InvalidateIommuPages) : Dwords :=
  let d0 := c.pasid &&& 0xfffff#32
  let d1 := (Opcode.invalidateIommuPages.value.setWidth 32 <<< 28) ||| c.domainId.setWidth 32
  let d2 := (((c.addr >>> 12).setWidth 32 &&& 0xfffff#32) <<< 12) ||| (boolAs 32 c.guestNested <<< 2) |||
    (boolAs 32 c.pde <<< 1) ||| boolAs 32 c.size
  ⟨d0, d1, d2, (c.addr >>> 32).setWidth 32⟩

structure InvalidateIotlbPages where
  deviceId : U16
  queueId : U16
  pasid : U32
  maxPend : U8
  addr : U64
  invType : U8
  size : Bool
  guestNested : Bool
  deriving DecidableEq, Repr

def InvalidateIotlbPages.encode (c : InvalidateIotlbPages) : Dwords :=
  let d0 := c.deviceId.setWidth 32 ||| (((c.pasid >>> 8) &&& 0xff#32) <<< 16) |||
    (c.maxPend.setWidth 32 <<< 24)
  let d1 := (Opcode.invalidateIotlbPages.value.setWidth 32 <<< 28) |||
    (((c.pasid >>> 16) &&& 0xf#32) <<< 24) ||| ((c.pasid &&& 0xff#32) <<< 16) ||| c.queueId.setWidth 32
  let d2 := (((c.addr >>> 12).setWidth 32 &&& 0xfffff#32) <<< 12) |||
    ((c.invType &&& 0x3#8).setWidth 32 <<< 4) ||| (boolAs 32 c.guestNested <<< 2) ||| boolAs 32 c.size
  ⟨d0, d1, d2, (c.addr >>> 32).setWidth 32⟩

structure CompletePprRequest where
  deviceId : U16
  pprTag : U16
  pasid : U16
  deriving DecidableEq, Repr

def CompletePprRequest.encode (c : CompletePprRequest) : U32 × U32 :=
  (c.deviceId.setWidth 32 ||| (c.pprTag.setWidth 32 <<< 16),
    (Opcode.completePprRequest.value.setWidth 32 <<< 28) ||| c.pasid.setWidth 32)

/-! ### Commands -/

inductive Command where
  | completionWait (c : CompletionWait)
  | invalidateDevTabEntry (c : InvalidateDevTabEntry)
  | invalidateIommuPages (c : InvalidateIommuPages)
  | invalidateIotlbPages (c : InvalidateIotlbPages)
  | invalidateInterruptTable (c : InvalidateDevTabEntry)
  | completePprRequest (c : CompletePprRequest)
  | invalidateIommuAll
  deriving DecidableEq, Repr

namespace Command

def opcode : Command → Opcode
  | completionWait _ => .completionWait
  | invalidateDevTabEntry _ => .invalidateDevtabEntry
  | invalidateIommuPages _ => .invalidateIommuPages
  | invalidateIotlbPages _ => .invalidateIotlbPages
  | invalidateInterruptTable _ => .invalidateInterruptTable
  | completePprRequest _ => .completePprRequest
  | invalidateIommuAll => .invalidateIommuAll

def words : Command → Dwords
  | completionWait c => c.encode
  | invalidateDevTabEntry c => ⟨c.encode.1, c.encode.2, 0#32, 0#32⟩
  | invalidateIommuPages c => c.encode
  | invalidateIotlbPages c => c.encode
  -- the payload type is shared with the device table command, and so is its encoder
  | invalidateInterruptTable c => ⟨c.encode.1, c.encode.2, 0#32, 0#32⟩
  | completePprRequest c => ⟨c.encode.1, c.encode.2, 0#32, 0#32⟩
  | invalidateIommuAll => ⟨0#32, Opcode.invalidateIommuAll.value.setWidth 32 <<< 28, 0#32, 0#32⟩

end Command

/-! ### Fields in place -/

open Word (place)

theorem CompletionWait.encode_layout (c : CompletionWait) : c.encode =
    ⟨place 32 0 (BitVec.ofBool c.store) ||| place 32 1 (BitVec.ofBool c.interrupt) |||
        place 32 2 (BitVec.ofBool c.flush) ||| place 32 3 (c.storeAddr.extractLsb' 3 29),
      place 32 28 0x1#4 ||| place 32 0 (c.storeAddr.extractLsb' 32 20),
      c.storeData.extractLsb' 0 32, c.storeData.extractLsb' 32 32⟩ := by
  have hlow := Word.cast_mask_place 29 c.storeAddr 3 3 (show 29 ≤ 32 by decide)
  have hhigh := Word.cast_mask_place 20 c.storeAddr 32 0 (show 20 ≤ 32 by decide)
  rw [← hlow, ← hhigh, ← Word.setWidth_shift, ← Word.setWidth_shift]
  simp only [Word.place_zero, BitVec.shiftLeft_zero, BitVec.ushiftRight_zero]
  rfl

theorem InvalidateIommuPages.encode_layout (c : InvalidateIommuPages) : c.encode =
    ⟨place 32 0 (c.pasid.extractLsb' 0 20),
      place 32 28 0x3#4 ||| place 32 0 c.domainId,
      place 32 12 (c.addr.extractLsb' 12 20) ||| place 32 2 (BitVec.ofBool c.guestNested) |||
        place 32 1 (BitVec.ofBool c.pde) ||| place 32 0 (BitVec.ofBool c.size),
      c.addr.extractLsb' 32 32⟩ := by
  have hpasid := Word.mask_place 20 c.pasid 0
  have haddr := Word.cast_mask_place 20 c.addr 12 12 (show 20 ≤ 32 by decide)
  rw [← hpasid, ← haddr, ← Word.setWidth_shift]
  simp only [Word.place_zero, BitVec.shiftLeft_zero]
  rfl

theorem InvalidateIotlbPages.encode_layout (c : InvalidateIotlbPages) : c.encode =
    ⟨place 32 0 c.deviceId ||| place 32 16 (c.pasid.extractLsb' 8 8) ||| place 32 24 c.maxPend,
      place 32 28 0x4#4 ||| place 32 24 (c.pasid.extractLsb' 16 4) |||
        place 32 16 (c.pasid.extractLsb' 0 8) ||| place 32 0 c.queueId,
      place 32 12 (c.addr.extractLsb' 12 20) ||| place 32 4 (c.invType &&& 0x3#8) |||
        place 32 2 (BitVec.ofBool c.guestNested) ||| place 32 0 (BitVec.ofBool c.size),
      c.addr.extractLsb' 32 32⟩ := by
  have hmid := Word.shift_mask_place 8 c.pasid 8 16
  have htop := Word.shift_mask_place 4 c.pasid 16 24
  have hlow := Word.mask_place 8 c.pasid 16
  have haddr := Word.cast_mask_place 20 c.addr 12 12 (show 20 ≤ 32 by decide)
  rw [← hmid, ← htop, ← hlow, ← haddr, ← Word.setWidth_shift]
  simp only [Word.place_zero]
  rfl

/-! ### The opcode nibble -/

/-- The opcode is read from the top nibble. -/
theorem fromDword1_eq (d : U32) : Opcode.fromDword1 d = ⟨(d.extractLsb' 28 4).setWidth 8⟩ := by
  rw [Opcode.fromDword1, top_nibble]

/-- What lies below the nibble does not reach the opcode. -/
theorem fromDword1_place_or (op : BitVec 4) (x : U32) (hx : x.extractLsb' 28 4 = 0#4) :
    Opcode.fromDword1 (place 32 28 op ||| x) = ⟨op.setWidth 8⟩ := by
  rw [fromDword1_eq, BitVec.extractLsb'_or, Word.slice_place 28 op (by decide), hx, BitVec.or_zero]

theorem fromDword1_field {n : Nat} (op : BitVec 4) (v : BitVec n) (hn : n ≤ 28) :
    Opcode.fromDword1 (place 32 28 op ||| place 32 0 v) = ⟨op.setWidth 8⟩ :=
  fromDword1_place_or op _ (Word.slice_place_apart 28 0 v (.inl (by omega)))

/-- The opcode of a command as a consumer of its dwords reads it. -/
def readOpcode (c : Command) : Opcode := Opcode.fromDword1 (c.words.d1)

/-- Every command reads as its own kind, but for one that reads as another's. -/
theorem readOpcode_eq (c : Command) : readOpcode c =
    match c with
    | .invalidateInterruptTable _ => .invalidateDevtabEntry
    | c => c.opcode := by
  cases c with
  | completionWait c =>
    have hd1 : c.encode.d1 = place 32 28 0x1#4 ||| place 32 0 (c.storeAddr.extractLsb' 32 20) := by
      rw [c.encode_layout]
    exact (congrArg Opcode.fromDword1 hd1).trans (fromDword1_field _ _ (by decide))
  | invalidateIommuPages c =>
    have hd1 : c.encode.d1 = place 32 28 0x3#4 ||| place 32 0 c.domainId := by
      rw [c.encode_layout]
    exact (congrArg Opcode.fromDword1 hd1).trans (fromDword1_field _ _ (by decide))
  | invalidateIotlbPages c =>
    have hd1 : c.encode.d1 = place 32 28 0x4#4 ||| (place 32 24 (c.pasid.extractLsb' 16 4) |||
        place 32 16 (c.pasid.extractLsb' 0 8) ||| place 32 0 c.queueId) := by
      rw [c.encode_layout, ← BitVec.or_assoc, ← BitVec.or_assoc]
    refine (congrArg Opcode.fromDword1 hd1).trans (fromDword1_place_or _ _ ?_)
    simp (disch := decide) only [BitVec.extractLsb'_or, Word.slice_place_apart, BitVec.or_zero]
  | completePprRequest c =>
    have hd1 : c.encode.2 = place 32 28 0x7#4 ||| place 32 0 c.pasid := by
      rw [Word.place_zero]
      rfl
    exact (congrArg Opcode.fromDword1 hd1).trans (fromDword1_field _ _ (by decide))
  | invalidateDevTabEntry c =>
    have hd1 : c.encode.2 = 0x20000000#32 := rfl
    exact congrArg Opcode.fromDword1 hd1
  | invalidateInterruptTable c =>
    have hd1 : c.encode.2 = 0x20000000#32 := rfl
    exact congrArg Opcode.fromDword1 hd1
  | invalidateIommuAll => rfl

theorem devtab_ne_interrupt_table :
    Opcode.invalidateDevtabEntry ≠ Opcode.invalidateInterruptTable := by
  decide

theorem readOpcode_agrees_iff (c : Command) :
    readOpcode c = c.opcode ↔ ∀ e, c ≠ .invalidateInterruptTable e := by
  rw [readOpcode_eq]
  cases c with
  | invalidateInterruptTable e =>
    constructor
    · intro h
      exact absurd h devtab_ne_interrupt_table
    · intro h
      exact absurd rfl (h e)
  | _ => simp

/-- The two commands that share a payload type share its encoding. -/
theorem words_shared (e : InvalidateDevTabEntry) :
    (Command.invalidateInterruptTable e).words = (Command.invalidateDevTabEntry e).words := rfl

theorem devtab_words_injective {e e' : InvalidateDevTabEntry}
    (h : (Command.invalidateDevTabEntry e).words = (Command.invalidateDevTabEntry e').words) : e = e' := by
  have hd0 : e.deviceId.setWidth 32 = e'.deviceId.setWidth 32 :=
    congrArg (fun ws : Dwords => ws.d0) h
  have hid := congrArg (fun d : U32 => d.setWidth 16) hd0
  simp only [BitVec.setWidth_setWidth_of_le _ (show 16 ≤ 32 by decide), BitVec.setWidth_eq] at hid
  cases e
  cases e'
  exact congrArg InvalidateDevTabEntry.mk hid

/-- Equal dwords of different kinds: one of the two is the interrupt table command. -/
theorem words_clash {c c' : Command} (hne : c.opcode ≠ c'.opcode) (hw : c.words = c'.words) :
    (∃ e, c = .invalidateInterruptTable e) ∨ ∃ e, c' = .invalidateInterruptTable e := by
  apply Classical.byContradiction
  intro hnone
  obtain ⟨hc, hc'⟩ := not_or.mp hnone
  have hread := (readOpcode_agrees_iff c).mpr (not_exists.mp hc)
  have hread' := (readOpcode_agrees_iff c').mpr (not_exists.mp hc')
  have hsame : readOpcode c = readOpcode c' := congrArg (fun ws : Dwords => Opcode.fromDword1 (ws.d1)) hw
  exact hne (by rw [← hread, hsame, hread'])

/-- The only command of another kind with the dwords of an interrupt table command. -/
theorem interrupt_table_clash {e : InvalidateDevTabEntry} {c : Command}
    (hne : c.opcode ≠ .invalidateInterruptTable) (hw : c.words = (Command.invalidateDevTabEntry e).words) :
    c = .invalidateDevTabEntry e := by
  have hread : readOpcode c = readOpcode (.invalidateDevTabEntry e) :=
    congrArg (fun ws : Dwords => Opcode.fromDword1 (ws.d1)) hw
  rw [readOpcode_eq, readOpcode_eq] at hread
  cases c with
  | invalidateDevTabEntry e' => rw [devtab_words_injective hw]
  | invalidateInterruptTable e' => exact absurd rfl hne
  | _ =>
    simp only [Command.opcode] at hread
    exact absurd hread (by decide)

/-- **Where encoder and opcode agree**: on every command but the interrupt table
one, and no two kinds encode alike but that one and the device table command. -/
theorem opcode_agrees_iff (c c' : Command) :
    (Opcode.fromDword1 (c.words.d1) = c.opcode ↔ ∀ e, c ≠ .invalidateInterruptTable e) ∧
    (c.opcode ≠ c'.opcode ∧ c.words = c'.words ↔
      ∃ e, (c = .invalidateInterruptTable e ∧ c' = .invalidateDevTabEntry e) ∨
        (c = .invalidateDevTabEntry e ∧ c' = .invalidateInterruptTable e)) := by
  refine ⟨readOpcode_agrees_iff c, ⟨fun ⟨hne, hw⟩ => ?_, ?_⟩⟩
  · rcases words_clash hne hw with ⟨e, rfl⟩ | ⟨e, rfl⟩
    · rw [words_shared] at hw
      exact ⟨e, .inl ⟨rfl, interrupt_table_clash hne.symm hw.symm⟩⟩
    · rw [words_shared] at hw
      exact ⟨e, .inr ⟨interrupt_table_clash hne hw, rfl⟩⟩
  · rintro ⟨e, ⟨rfl, rfl⟩ | ⟨rfl, rfl⟩⟩
    · exact ⟨devtab_ne_interrupt_table.symm, words_shared e⟩
    · exact ⟨devtab_ne_interrupt_table, (words_shared e).symm⟩

/-- Invalidating the interrupt table of device 5 is read as invalidating its device
table entry. -/
theorem interrupt_table_reads_devtab :
    Opcode.fromDword1 ((Command.invalidateInterruptTable ⟨5#16⟩).words.d1) ≠
        (Command.invalidateInterruptTable ⟨5#16⟩).opcode ∧
      (Command.invalidateInterruptTable ⟨5#16⟩).opcode ≠ (Command.invalidateDevTabEntry ⟨5#16⟩).opcode ∧
      (Command.invalidateInterruptTable ⟨5#16⟩).words = (Command.invalidateDevTabEntry ⟨5#16⟩).words := by
  decide

end Iommu.Amd.Cmd
