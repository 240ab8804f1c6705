import Iommu.Devices

/-! Address spaces of processes.

In scalable mode a context entry names a PASID directory, an entry of the directory names a
PASID table, and an entry of the table says how the requests of a process are translated.
Whatever else is stored, a process finds the entry last built for it, with its fields as
they were last set (`pasids_translated`). -/
namespace Iommu.Pasids
open Lib PageTables Tables Linked Devices Intel.Context

abbrev PasidCall := PasidTableEntry.record.slots.Call

def buildPasid (calls : List PasidCall) : PasidTableEntry := PasidTableEntry.record.slots.run .new calls

section Lookup
variable {Err M : Type} (dirRef : Nat → List U8 → Except Err PasidDirEntry)
  (pasidRef : Nat → List U8 → Except Err PasidTableEntry)

/-- The PASID table that an entry of the directory names. -/
def pasidTableOf (d : PasidDirEntry) : Option U64 := if d.present then some d.pasidTablePtr else none

/-- The entry of a process, by its slot in the directory and the slot in the table there. -/
def pasidOf (c : ScalableContextEntry) (m : Memory M) (i j : Nat) : Exec (Option PasidTableEntry) :=
  find pasidDirEntries pasidTableEntries (fun addr bytes => (dirRef addr bytes).toOption) (pasidTableEntry pasidRef)
    pasidTableOf c.pasidDirPtr.toNat m i j

theorem pasidTableOf_new (a : U64) : pasidTableOf (.new a) = some (a &&& ~~~0xfff#64) := by
  obtain ⟨hpresent, -, htable⟩ := PasidDirEntry.new_names a
  rw [pasidTableOf, if_pos hpresent, htable]

end Lookup

/-- **A process reaches its address space**: after any run in which tables are put in a PASID
directory, entries are stored in them and page tables updated, a process finds the entry
last stored for it, every field of which is what it was last set to, and from a page table
pointer that was last set to a domain's root the walk answers as that domain's address
space has it. -/
theorem pasids_translated {Err D : Type} [DecidableEq D] (dirRef : Nat → List U8 → Except Err PasidDirEntry)
    (pasidRef : Nat → List U8 → Except Err PasidTableEntry) (hdirRef : pasidDirEntries.RefFromBytes dirRef)
    (hpasidRef : pasidTableEntries.RefFromBytes pasidRef) (S : Domains D) (c : ScalableContextEntry) (n : Nat)
    (count : U64 → Nat) (m : Memory (U64 → U64)) (hdir : m.upper.length = pasidDirEntries.size * n)
    (hpasids : ∀ a, (m.lower a).length = pasidTableEntries.size * count a) (hempty : EmptyRoots S m.rest)
    (steps : List (Step PasidDirEntry PasidTableEntry (Update S Intel.PageTables.Perm)))
    (hslots : ∀ s ∈ steps, s.Inside n count) (hrun : AllowedRun secondStage m.rest (updates steps)) :
    ∃ after, runSteps pasidDirEntries pasidTableEntries (fun mem u => u.apply secondStage mem) m steps =
        .returns after ∧
      (∀ i j table calls, LastUpper i (.new table) steps →
        LastLower (table &&& ~~~0xfff#64) j (buildPasid calls) steps →
        ∃ e, pasidOf dirRef pasidRef c after i j = .returns (some e) ∧
          (∀ f v, PasidTableEntry.record.slots.LastSet f v calls →
            PasidTableEntry.record.get f e = PasidTableEntry.record.kept f v) ∧
          ∀ d, PasidTableEntry.record.slots.LastSet .pageTablePtr (S.root d) calls →
            Translates secondStage (spaceAfter secondStage (Space.empty S) (updates steps)) d (S.levels d) fun vaddr =>
              Intel.PageTables.walk .second (S.levels d) e.pageTablePtr vaddr after.rest) ∧
      ∀ i j d, LastUpper i d steps → d.present = false → pasidOf dirRef pasidRef c after i j = .returns none := by
  obtain ⟨after, hafter, hshown⟩ := run_shows pasidDirEntries pasidTableEntries
    (fun mem u => u.apply secondStage mem) (by decide) (by decide) hdirRef hpasidRef m hdir hpasids steps hslots
  have hbase : c.pasidDirPtr.toNat % 8 = 0 := page_aligned c.q0
  refine ⟨after, hafter, fun i j table calls hupper hlower => ?_, fun i j d hupper hpresent => ?_⟩
  · have hfaithful := PasidTableEntry.record.independent.faithful .new calls
    refine ⟨buildPasid calls, ?_, fun f v hset => hfaithful.get_last hset, fun d hset => ?_⟩
    · exact hshown.find_last hbase hupper (pasidTableOf_new table) (page_aligned table) hlower
    · have hpointer : (buildPasid calls).pageTablePtr = S.root d &&& ~~~0xfff#64 := hfaithful.get_last hset
      rw [page_of_aligned (S.root_aligned d)] at hpointer
      rw [hshown.rest, ← run_eq_foldl]
      exact translates_run secondStage hempty hrun hpointer rfl
  · exact hshown.find_none hbase hupper (if_neg (Bool.eq_false_iff.mp hpresent))

def processCalls (d : Bool) : List PasidCall :=
  [⟨.pageTablePtr, fourLevels.root d⟩, ⟨.pgtt, Pgtt.secondStageOnly⟩, ⟨.domainId, 7#16⟩, ⟨.present, true⟩]

/-- A process goes from one domain to another. -/
def moved : List (Step PasidDirEntry PasidTableEntry (Update fourLevels Intel.PageTables.Perm)) :=
  [.upper 1 (.new 0x9000#64), .lower 0x9000#64 0 (buildPasid (processCalls true)), .other (fourLink false),
    .lower 0x9000#64 0 (buildPasid (processCalls false))]

theorem moved_inside : ∀ s ∈ moved, s.Inside 2 fun _ => 1 := by
  simp only [moved, List.forall_mem_cons, Step.Inside]
  exact ⟨by decide, by decide, trivial, by decide, fun _ h => absurd h List.not_mem_nil⟩

theorem moved_translated :
    ∃ after, runSteps pasidDirEntries pasidTableEntries (fun mem u => u.apply secondStage mem)
        ⟨List.replicate 32 0#8, fun _ => List.replicate 64 0#8, fun _ => 0#64⟩ moved = .returns after ∧
      ∃ e, pasidOf pasidDirEntries.strictRef pasidTableEntries.strictRef (.withPasidDirPtr 0x6000#64 .new) after 1 0 =
          .returns (some e) ∧ e.present = true ∧
        Translates secondStage (spaceAfter secondStage (Space.empty fourLevels) [fourLink false]) false 4 fun vaddr =>
          Intel.PageTables.walk .second 4 e.pageTablePtr vaddr after.rest := by
  obtain ⟨after, hafter, hfinds, -⟩ := pasids_translated pasidDirEntries.strictRef pasidTableEntries.strictRef
    pasidDirEntries.strictRef_reads pasidTableEntries.strictRef_reads fourLevels (.withPasidDirPtr 0x6000#64 .new) 2
    (fun _ => 1) ⟨List.replicate 32 0#8, fun _ => List.replicate 64 0#8, fun _ => 0#64⟩ rfl (fun _ => rfl)
    fourLevels_empty moved moved_inside ⟨fourLink_allowed false, trivial⟩
  obtain ⟨e, he, hfields, htranslates⟩ := hfinds 1 0 0x9000#64 (processCalls false)
    ⟨[], moved.drop 1, rfl, by simp [moved]⟩ ⟨moved.take 3, [], rfl, fun _ => List.not_mem_nil⟩
  refine ⟨after, hafter, e, he, ?_, ?_⟩
  · exact hfields .present true ⟨(processCalls false).take 3, [], rfl, fun _ h => absurd h List.not_mem_nil⟩
  · exact htranslates false ⟨[], (processCalls false).drop 1, rfl, by unfold Slots.Unset; decide⟩

end Iommu.Pasids
