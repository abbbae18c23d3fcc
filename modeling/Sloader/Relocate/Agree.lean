import Sloader.Relocate.Words
import Sloader.Relocate.Separate
import Sloader.Relocate.Copy
import Mathlib.Data.Set.Function

namespace Sloader

open Data

/-! What a pass leaves does not depend on what was at its targets, only on the
names and on what its `COPY` entries copy. -/

/-- The bytes that the write copies. -/
def Write.Reads : Write → Address → Prop
  | .copy _ source size, address => Inside source size.toNat address
  | _, _ => False

/-- The bytes that the items write. -/
def written (host : Host) (memory : Memory) (binaries : List ELFBinary) (items : List Item) : Set Address :=
  { address | ∃ item ∈ items, (item.write host memory binaries).Covers address }

/-- Every item copies bytes of the set, or bytes that an item before it has written. -/
def ReadsFrom (host : Host) (memory : Memory) (binaries : List ELFBinary) (items : List Item)
    (source : Set Address) : Prop :=
  ∀ before item later, items = before ++ item :: later → ∀ address,
    (item.write host memory binaries).Reads address → address ∈ source ∪ written host memory binaries before

variable {host : Host} {initial left right after : Memory} {binaries : List ELFBinary} {write : Write} {item : Item}
  {items rest : List Item} {records : List Processed} {same : Set Address} {address : Address}
  {loader next : DynLoader}

theorem written_cons : written host initial binaries (item :: items) =
    { address | (item.write host initial binaries).Covers address } ∪ written host initial binaries items := by
  ext address
  simp only [written, List.mem_cons, exists_eq_or_imp, Set.mem_ofPred_eq, Set.mem_union]

theorem ReadsFrom.head (reads : ReadsFrom host initial binaries (item :: items) same)
    (inside : (item.write host initial binaries).Reads address) : address ∈ same := by
  have known := reads [] item items rfl address inside
  simpa [written] using known

theorem ReadsFrom.tail (reads : ReadsFrom host initial binaries (item :: items) same) :
    ReadsFrom host initial binaries items
      (same ∪ { address | (item.write host initial binaries).Covers address }) := by
  intro before other later split address inside
  have known := reads (item :: before) other later (by rw [split, List.cons_append]) address inside
  rwa [written_cons, ← Set.union_assoc] at known

theorem Write.byteAt_congr (reads : ∀ address, write.Reads address → left.bytes address = right.bytes address)
    (covers : write.Covers address) : write.byteAt left address = write.byteAt right address := by
  cases write with
  | none => rfl
  | word start value => rfl
  | copy destination source size =>
      apply reads
      have place : source + (address - destination) - source = address - destination := by bv_omega
      change (source + (address - destination) - source).toNat < size.toNat
      rw [place]
      exact covers

theorem Write.apply_eqOn (agree : Set.EqOn left.bytes right.bytes same)
    (reads : ∀ address, write.Reads address → address ∈ same) :
    Set.EqOn (write.apply left).bytes (write.apply right).bytes (same ∪ { address | write.Covers address }) := by
  intro address known
  by_cases covers : write.Covers address
  · rw [apply_inside covers, apply_inside covers]
    exact byteAt_congr (fun place inside => agree (reads place inside)) covers
  · rw [apply_outside covers, apply_outside covers]
    exact agree (known.resolve_right covers)

/-- The names that the entries referred to, and what they did. -/
def effects (records : List Processed) : List (CString × Write) :=
  records.map fun record => (record.name, record.write)

/-- After a pass whose items copy nothing that is written later, what they copy has
either not changed or been written before them. -/
theorem readsFrom_settled
    (settled : ∀ before item later, items = before ++ item :: later →
      ∀ address, (item.write host initial binaries).Reads address →
      ∀ other ∈ item :: later, ¬ (other.write host initial binaries).Covers address)
    (unwritten : ∀ address ∉ written host initial binaries items, initial.bytes address = after.bytes address) :
    ReadsFrom host initial binaries items { address | initial.bytes address = after.bytes address } := by
  intro before item later split address inside
  by_cases earlier : address ∈ written host initial binaries before
  · exact .inr earlier
  · refine .inl (unwritten address ?_)
    rintro ⟨other, member, covers⟩
    rw [split] at member
    rcases List.mem_append.mp member with inBefore | inRest
    · exact earlier ⟨other, inBefore, covers⟩
    · exact settled before item later split address inside other inRest covers

/-- Two passes over the same items, from memories with the same names. -/
theorem SparesStrings.agree (spares : SparesStrings host initial binaries items)
    (keptLeft : KeepsStrings initial left binaries) (keptRight : KeepsStrings initial right binaries)
    (agree : Set.EqOn left.bytes right.bytes same) (reads : ReadsFrom host initial binaries items same)
    (passed : pass host binaries left items = .ok (after, records)) :
    ∃ last others, pass host binaries right items = .ok (last, others) ∧ effects others = effects records ∧
      Set.EqOn after.bytes last.bytes (same ∪ written host initial binaries items) := by
  induction items generalizing left right same records with
  | nil =>
      cases passed
      exact ⟨right, [], rfl, rfl, by simpa [written] using agree⟩
  | cons item items ih =>
      obtain ⟨name, remaining, resolved, keptNext, passedRest, rfl⟩ := spares.step keptLeft passed
      have resolvedRight := resolved
      rw [← keptRight.sameNames.resolveEntry (spares.known item List.mem_cons_self)] at resolvedRight
      have keptOther : KeepsStrings initial ((item.write host initial binaries).apply right) binaries := by
        intro binary member address inside
        rw [Write.apply_outside fun covers => spares.spared item List.mem_cons_self address covers binary member inside]
        exact keptRight binary member address inside
      obtain ⟨last, others, passedRight, sameEffects, agreeLast⟩ :=
        ih (spares.sublist fun _ => List.mem_cons_of_mem item) keptNext keptOther
          (Write.apply_eqOn agree fun _ => reads.head) reads.tail passedRest
      refine ⟨last, _, pass_cons_ok.mpr ⟨name, _, others, resolvedRight, passedRight, rfl⟩, ?_, ?_⟩
      · exact congrArg ((name, item.write host initial binaries) :: ·) sameEffects
      · rwa [written_cons, ← Set.union_assoc]

theorem Memory.eq_of_bytes (bytes : left.bytes = right.bytes) (ranges : left.ranges = right.ranges) : left = right := by
  cases left
  cases right
  exact (Memory.mk.injEq ..).mpr ⟨bytes, ranges⟩

namespace DynLoader

theorem relocate_of_pass (passed : pass host loader.binaries loader.memory loader.work = .ok (after, records)) :
    loader.relocate host = .ok { loader with
      memory := after
      processed := loader.processed ++ records
      relocated := marked loader.relocated loader.binaries.zipIdx } := by
  rw [relocate_eq, passed]
  rfl

/-- The entries are of the kind with explicit addends: what the targets held
before does not matter. -/
theorem relocate_ignores_targets (spares : SparesStrings host loader.memory loader.binaries loader.work)
    (ran : loader.relocate host = .ok next) (memory : Memory)
    (names : KeepsStrings loader.memory memory loader.binaries)
    (sources : ReadsFrom host loader.memory loader.binaries loader.work
      { address | loader.memory.bytes address = memory.bytes address }) :
    ∃ again, (loader.withMemory memory).relocate host = .ok again ∧
      effects again.processed = effects next.processed ∧
      (∀ address ∈ written host loader.memory loader.binaries loader.work,
        again.memory.bytes address = next.memory.bytes address) ∧
      ∀ address ∉ written host loader.memory loader.binaries loader.work,
        again.memory.bytes address = memory.bytes address := by
  obtain ⟨records, passed, same⟩ := relocate_pass ran
  obtain ⟨last, others, passedAgain, sameEffects, agree⟩ :=
    spares.agree (.refl _ _) names (fun _ => id) sources passed
  refine ⟨_, (loader.withMemory memory).relocate_of_pass passedAgain, ?_, ?_, ?_⟩
  · rw [same]
    simp only [effects, List.map_append] at sameEffects ⊢
    rw [sameEffects]
    rfl
  · intro address inside
    exact (agree (.inr inside)).symm
  · intro address outside
    exact spares.outside names passedAgain fun item member covers => outside ⟨item, member, covers⟩

theorem copyLoader_writes :
    copyLoader.work.map (Item.write copyHost copyLoader.memory copyLoader.binaries) =
      [.copy 0x14000e8 0x18000e8 8, .word 0x18000e8 0x18000f0] := by
  decide +kernel

/-- Whatever the place of the executable's copy holds, it gets the same value. -/
theorem relocate_ignores_targets_copyLoader :
    ∃ next again, copyLoader.relocate copyHost = .ok next ∧
      (copyLoader.withMemory (copyLoader.memory.store64 0x14000e8 7)).relocate copyHost = .ok again ∧
      again.memory.bytes 0x14000e8 = next.memory.bytes 0x14000e8 := by
  obtain ⟨_, _, ends, _, run⟩ := copyLoader_facts
  obtain ⟨next, ran, _⟩ := Option.map_eq_some_iff.mp run
  have spares := DynLoader.sparesStrings 2 ends
  have writes := copyLoader_writes
  obtain ⟨copy, copies, isCopy⟩ := List.mem_map.mp (writes ▸ List.mem_cons_self :
    Write.copy 0x14000e8 0x18000e8 8 ∈ copyLoader.work.map _)
  have names : KeepsStrings copyLoader.memory (copyLoader.memory.store64 0x14000e8 7) copyLoader.binaries := by
    intro binary member address inside
    refine Bytes.patch_outside fun covers => spares.spared copy copies address ?_ binary member inside
    rw [isCopy]
    exact covers
  obtain ⟨again, ranAgain, _, targets, _⟩ := relocate_ignores_targets spares (eq_ok_of_toOption ran)
    (copyLoader.memory.store64 0x14000e8 7) names (by
      intro before item later split address inside
      have member : item.write copyHost copyLoader.memory copyLoader.binaries ∈ copyLoader.work.map
          (Item.write copyHost copyLoader.memory copyLoader.binaries) := by
        rw [split]
        exact List.mem_map_of_mem (by simp)
      rw [writes, List.mem_cons, List.mem_singleton] at member
      rcases member with same | same
      · rw [same] at inside
        exact .inl (Bytes.patch_outside (apart_of_starts (by decide) (by decide) address inside)).symm
      · rw [same] at inside
        exact inside.elim)
  refine ⟨next, again, eq_ok_of_toOption ran, ranAgain, targets _ ⟨copy, copies, ?_⟩⟩
  rw [isCopy]
  decide

/-- If no entry copies what it or an entry after it writes, the entries may be
processed again: `relocated_` only saves the time. -/
theorem relocate_idempotent (spares : SparesStrings host loader.memory loader.binaries loader.work)
    (ran : loader.relocate host = .ok next)
    (settled : ∀ before item later, loader.work = before ++ item :: later →
      ∀ address, (item.write host loader.memory loader.binaries).Reads address →
      ∀ other ∈ item :: later, ¬ (other.write host loader.memory loader.binaries).Covers address) :
    ∃ again, ({ next with relocated := loader.relocated } : DynLoader).relocate host = .ok again ∧
      again.memory = next.memory ∧ again.relocated = next.relocated := by
  obtain ⟨records, passed, same⟩ := relocate_pass ran
  have unwritten {address : Address} (outside : address ∉ written host loader.memory loader.binaries loader.work) :
      next.memory.bytes address = loader.memory.bytes address :=
    spares.outside (.refl _ _) passed fun item member covers => outside ⟨item, member, covers⟩
  have reads := readsFrom_settled settled fun address outside => (unwritten outside).symm
  obtain ⟨last, others, passedAgain, _, agree⟩ :=
    spares.agree (.refl _ _) (spares.keeps (.refl _ _) passed) (fun _ => id) reads passed
  have bytes : last.bytes = next.memory.bytes := by
    funext address
    by_cases inside : address ∈ written host loader.memory loader.binaries loader.work
    · exact (agree (.inr inside)).symm
    · exact (agree (.inl (unwritten inside).symm)).symm
  have memory : last = next.memory := Memory.eq_of_bytes bytes (pass_ranges passedAgain)
  have binaries : next.binaries = loader.binaries := relocate_binaries ran
  let unmarked : DynLoader := { next with relocated := loader.relocated }
  have work : unmarked.work = loader.work := by
    simp only [unmarked, DynLoader.work, binaries]
  have passedUnmarked : pass host unmarked.binaries unmarked.memory unmarked.work = .ok (last, others) := by
    rw [work]
    exact binaries.symm ▸ passedAgain
  refine ⟨_, relocate_of_pass passedUnmarked, memory, ?_⟩
  change marked loader.relocated next.binaries.zipIdx = next.relocated
  rw [binaries]
  exact (congrArg DynLoader.relocated same).symm

theorem relocate_idempotent_pointerLoader :
    ∃ next again, pointerLoader.relocate pointerHost = .ok next ∧
      ({ next with relocated := pointerLoader.relocated } : DynLoader).relocate pointerHost = .ok again ∧
      again.memory = next.memory := by
  obtain ⟨paths, fresh, word, _, terminators, completes⟩ := pointerLoader_separate
  obtain ⟨next, ran⟩ := exists_of_isOk completes
  have work := @work_eq_everyItem pointerLoader fresh paths
  have spares : SparesStrings pointerHost pointerLoader.memory pointerLoader.binaries pointerLoader.work := by
    refine ⟨fun item member => List.mem_of_getElem? (mem_work member).1, ?_⟩
    intro item member address covers binary known
    rw [work] at member
    obtain ⟨offset, within, _, rfl⟩ := (Item.write_covers (word item member) covers).exists_offset
    apply not_inStrings
    intro symbol inTable
    obtain ⟨length, _, before, ends⟩ := terminators item member binary known symbol inTable offset within
    exact ⟨length, before, ends⟩
  obtain ⟨again, ranAgain, memory, _⟩ := relocate_idempotent spares ran (by
    intro before item later split address inside
    have member : item ∈ pointerLoader.work := split ▸ List.mem_append_right before List.mem_cons_self
    -- entries of these types copy nothing
    rcases Item.write_word (word item (work ▸ member)) with nothing | ⟨value, stored⟩
    · rw [nothing] at inside
      exact inside.elim
    · rw [stored] at inside
      exact inside.elim)
  exact ⟨next, again, ran, ranAgain, memory⟩

end DynLoader

end Sloader
