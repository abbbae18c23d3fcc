import Sloader.Relocate.Pass
import Sloader.Run

namespace Sloader

open Data

/-! The history of relocation over whole runs: which entries have been processed
and what each of them was bound to. -/

def Processed.place (record : Processed) : Nat × Nat :=
  (record.binary, record.entry)

def Item.place (item : Item) : Nat × Nat :=
  (item.binIndex, item.index)

/-- The record of an entry of one of the binaries, whose symbol was looked for
in the first of them. -/
structure Processed.Of (host : Host) (binaries : List ELFBinary) (record : Processed) : Prop where
  scope : record.scope ≤ binaries.length
  resolved : ∃ bin, (binaries.take record.scope)[record.binary]? = some bin ∧
    bin.entries[record.entry]? = some record.rela ∧
    resolveEntry host record.memory (binaries.take record.scope) bin record.rela = .ok (record.name, record.write)

def FirstOfPath (binaries : List ELFBinary) (index : Nat) (binary : ELFBinary) : Prop :=
  ∀ other ∈ binaries.take index, pathKey other.path ≠ pathKey binary.path

variable {host : Host} {binaries more : List ELFBinary} {memory after : Memory} {items : List Item}
  {record : Processed} {records : List Processed} {relocated : List PathKey} {index : Nat} {binary : ELFBinary}

theorem Processed.Of.append (sound : record.Of host binaries) (more : List ELFBinary) :
    record.Of host (binaries ++ more) := by
  obtain ⟨scope, resolved⟩ := sound
  have same : (binaries ++ more).take record.scope = binaries.take record.scope := List.take_append_of_le_length scope
  refine ⟨?_, by rwa [same]⟩
  rw [List.length_append]
  omega

theorem Processed.Of.entry (sound : record.Of host binaries) :
    ∃ bin, binaries[record.binary]? = some bin ∧ bin.entries[record.entry]? = some record.rela ∧
      resolveEntry host record.memory (binaries.take record.scope) bin record.rela =
        .ok (record.name, record.write) := by
  obtain ⟨bin, found, rest⟩ := sound.resolved
  obtain ⟨within, _⟩ := List.getElem?_eq_some_iff.mp found
  rw [List.length_take] at within
  rw [List.getElem?_take_of_lt (by omega)] at found
  exact ⟨bin, found, rest⟩

theorem FirstOfPath.append_iff (within : index < binaries.length) :
    FirstOfPath (binaries ++ more) index binary ↔ FirstOfPath binaries index binary := by
  rw [FirstOfPath, FirstOfPath, List.take_append_of_le_length (Nat.le_of_lt within)]

theorem firstOfPath_cons {head : ELFBinary} {rest : List ELFBinary} :
    FirstOfPath (head :: rest) (index + 1) binary ↔
      pathKey head.path ≠ pathKey binary.path ∧ FirstOfPath rest index binary := by
  simp [FirstOfPath]

/-- A binary is not skipped if its path is new and it is the first to have it. -/
theorem mem_pending_zipIdx {first : Nat} {entry : ELFBinary × Nat} :
    entry ∈ pending relocated (binaries.zipIdx first) ↔
      ∃ index, entry.2 = first + index ∧ binaries[index]? = some entry.1 ∧ pathKey entry.1.path ∉ relocated ∧
        FirstOfPath binaries index entry.1 := by
  induction binaries generalizing first relocated with
  | nil => simp [pending]
  | cons head rest ih =>
      have atHead : FirstOfPath (head :: rest) 0 entry.1 := by simp [FirstOfPath]
      have isHead : entry = (head, first) ↔ entry.2 = first ∧ head = entry.1 := by
        rw [Prod.ext_iff, and_comm, @eq_comm _ entry.1]
      -- the first binary of the list, or one of those after it
      rw [← Nat.or_exists_add_one, List.zipIdx_cons, pending]
      simp only [List.getElem?_cons_zero, List.getElem?_cons_succ, Option.some.injEq, Nat.add_zero, atHead,
        and_true, firstOfPath_cons, ← Nat.add_assoc, Nat.add_right_comm first _ 1]
      split
      · rename_i marked
        rw [ih]
        constructor
        · rintro ⟨index, place, found, unmarked, isFirst⟩
          exact .inr ⟨index, place, found, unmarked, fun same => unmarked (same ▸ marked), isFirst⟩
        · rintro (⟨_, same, unmarked⟩ | ⟨index, place, found, unmarked, _, isFirst⟩)
          · exact absurd (same ▸ marked) unmarked
          · exact ⟨index, place, found, unmarked, isFirst⟩
      · rename_i unmarked
        rw [List.mem_cons, ih, isHead]
        constructor
        · rintro (⟨place, same⟩ | ⟨index, place, found, fresh, isFirst⟩)
          · exact .inl ⟨place, same, same ▸ unmarked⟩
          · rw [List.mem_cons, not_or] at fresh
            exact .inr ⟨index, place, found, fresh.2, Ne.symm fresh.1, isFirst⟩
        · rintro (⟨place, same, _⟩ | ⟨index, place, found, fresh, differs, isFirst⟩)
          · exact .inl ⟨place, same⟩
          · exact .inr ⟨index, place, found, List.not_mem_cons_of_ne_of_not_mem (Ne.symm differs) fresh, isFirst⟩

theorem mem_marked {placed : List (ELFBinary × Nat)} {key : PathKey} :
    key ∈ marked relocated placed ↔ key ∈ relocated ∨ ∃ entry ∈ placed, pathKey entry.1.path = key := by
  induction placed generalizing relocated with
  | nil => simp [marked]
  | cons head rest ih =>
      simp only [marked]
      split
      · rename_i known
        rw [ih]
        constructor
        · intro either
          rcases either with old | ⟨entry, member, same⟩
          · exact .inl old
          · exact .inr ⟨entry, List.mem_cons_of_mem head member, same⟩
        · intro either
          rcases either with old | ⟨entry, member, same⟩
          · exact .inl old
          · rcases List.mem_cons.mp member with rfl | inRest
            · exact .inl (same ▸ known)
            · exact .inr ⟨entry, inRest, same⟩
      · rw [ih, List.mem_cons, List.exists_mem_cons_iff, or_assoc, or_left_comm, eq_comm]

theorem pass_places (passed : pass host binaries memory items = .ok (after, records)) :
    records.map Processed.place = items.map Item.place := by
  induction items generalizing memory records with
  | nil =>
      cases passed
      rfl
  | cons item rest ih =>
      obtain ⟨name, write, later, _, remaining, rfl⟩ := pass_cons_ok.mp passed
      rw [List.map_cons, List.map_cons, ih remaining]
      rfl

theorem pass_records (passed : pass host binaries memory items = .ok (after, records))
    (known : ∀ item ∈ items, binaries[item.binIndex]? = some item.bin ∧ item.bin.entries[item.index]? = some item.rela) :
    ∀ record ∈ records, record.scope = binaries.length ∧ record.Of host binaries := by
  induction items generalizing memory records with
  | nil =>
      cases passed
      exact fun record member => absurd member List.not_mem_nil
  | cons item rest ih =>
      obtain ⟨name, write, later, resolved, remaining, rfl⟩ := pass_cons_ok.mp passed
      obtain ⟨atIndex, entry⟩ := known item List.mem_cons_self
      intro record member
      rcases List.mem_cons.mp member with rfl | inLater
      · refine ⟨rfl, Nat.le_refl _, item.bin, ?_⟩
        have whole : binaries.take (item.record name binaries.length memory write).scope = binaries :=
          List.take_of_length_le (Nat.le_refl _)
        rw [whole]
        exact ⟨atIndex, entry, resolved⟩
      · exact ih remaining (fun other inRest => known other (List.mem_cons_of_mem item inRest)) record inLater

namespace DynLoader

variable {loader : DynLoader}

theorem mem_work_place {place : Nat × Nat} :
    place ∈ loader.work.map Item.place ↔
      ∃ binary, loader.binaries[place.1]? = some binary ∧ place.2 < binary.entries.length ∧
        pathKey binary.path ∉ loader.relocated ∧ FirstOfPath loader.binaries place.1 binary := by
  simp only [work, List.mem_map, List.mem_flatMap, mem_pending_zipIdx, mem_itemsOf, Nat.zero_add]
  constructor
  · intro ⟨item, ⟨placed, ⟨index, at_, found, unmarked, isFirst⟩, inPlaced, _, entry⟩, samePlace⟩
    subst samePlace
    rw [← at_, ← inPlaced] at found isFirst
    exact ⟨placed.1, found, (List.getElem?_eq_some_iff.mp entry).1, unmarked, isFirst⟩
  · intro ⟨binary, found, within, unmarked, isFirst⟩
    obtain ⟨index, position⟩ := place
    exact ⟨⟨index, binary, position, binary.entries[position]⟩,
      ⟨(binary, index), ⟨index, rfl, found, unmarked, isFirst⟩, rfl, rfl, List.getElem?_eq_getElem within⟩, rfl⟩

theorem work_places_nodup (loader : DynLoader) : (loader.work.map Item.place).Nodup := by
  rw [work, List.map_flatMap, List.nodup_flatMap]
  constructor
  · intro placed _
    have indices : (placed.1.entries.zipIdx.map Prod.snd).Nodup := by
      rw [List.zipIdx_map_snd]
      exact List.nodup_range'
    rw [itemsOf, List.map_map]
    rw [List.Nodup, List.pairwise_map] at indices ⊢
    exact indices.imp fun differs same => differs (Prod.mk.inj same).2
  · have indices : (loader.binaries.zipIdx.map Prod.snd).Nodup := by
      rw [List.zipIdx_map_snd]
      exact List.nodup_range'
    rw [List.Nodup, List.pairwise_map] at indices
    refine (indices.sublist (pending_sublist _ _)).imp ?_
    intro left right differs place inLeft inRight
    simp only [itemsOf, List.map_map, List.mem_map] at inLeft inRight
    obtain ⟨_, _, rfl⟩ := inLeft
    obtain ⟨_, _, same⟩ := inRight
    exact differs (congrArg Prod.fst same).symm

theorem loadDependingLibs_history {loaded : DynLoader} {steps : Nat} {path : Path}
    (ran : loader.loadDependingLibs host steps path = .ok loaded) :
    ∃ more, loaded.binaries = loader.binaries ++ more ∧ loaded.relocated = loader.relocated ∧
      loaded.processed = loader.processed := by
  refine (Visits.of_loadDependingLibs ran).invariant (fun state => ∃ more,
    state.binaries = loader.binaries ++ more ∧ state.relocated = loader.relocated ∧
      state.processed = loader.processed) ?_ ?_ ⟨[], by simp, rfl, rfl⟩
  · intro state name same
    exact same
  · intro state path binary next ⟨more, binaries, relocated, processed⟩ emplaced
    obtain ⟨_, _, _, _, rfl⟩ := emplace_spec emplaced
    exact ⟨more ++ [binary], by simp [binaries], relocated, processed⟩

theorem Later.binaries_append {next : DynLoader} (later : Later host loader next) :
    ∃ more, next.binaries = loader.binaries ++ more := by
  induction later with
  | now => exact ⟨[], by simp⟩
  | program _ memory ih => exact ih
  | tls _ ran ih =>
      rw [(executeTls_bookkeeping ran).binaries]
      exact ih
  | dlopen _ ran ih =>
      rcases sloaderDlopen_cases ran with rfl | ⟨path, loaded, loads, relocates⟩
      · exact ih
      · obtain ⟨first, old⟩ := ih
        obtain ⟨second, new, _⟩ := loadDependingLibs_history loads
        exact ⟨first ++ second, by rw [relocate_binaries relocates, new, old, List.append_assoc]⟩

/-- What holds between calls.  A path is marked once a binary that has it is
loaded, and what has been processed are the entries of the first such binary. -/
structure History (host : Host) (loader : DynLoader) : Prop where
  records : ∀ record ∈ loader.processed, record.Of host loader.binaries
  scopes : loader.processed.Pairwise fun first second => first.scope ≤ second.scope
  marks : ∀ key, key ∈ loader.relocated ↔ ∃ binary ∈ loader.binaries, pathKey binary.path = key
  once : (loader.processed.map Processed.place).Nodup
  places : ∀ place, place ∈ loader.processed.map Processed.place ↔
    ∃ binary, loader.binaries[place.1]? = some binary ∧ place.2 < binary.entries.length ∧
      FirstOfPath loader.binaries place.1 binary

theorem history_fresh (memory : Memory) : History host (fresh memory) :=
  ⟨by simp [fresh], by simp [fresh], by simp [fresh], by simp [fresh], by simp [fresh]⟩

theorem History.of_bookkeeping {next : DynLoader} (history : History host loader)
    (same : SameBookkeeping loader next) : History host next := by
  obtain ⟨records, scopes, marks, once, places⟩ := history
  rw [← same.processed] at records scopes once places
  rw [← same.binaries] at records marks places
  rw [← same.relocated] at marks
  exact ⟨records, scopes, marks, once, places⟩

/-- The entries that a call goes through next are those of new first binaries. -/
theorem History.mem_work {loaded : DynLoader} {place : Nat × Nat} (history : History host loader)
    (binaries : loaded.binaries = loader.binaries ++ more) (relocated : loaded.relocated = loader.relocated) :
    place ∈ loaded.work.map Item.place ↔
      loader.binaries.length ≤ place.1 ∧ ∃ binary, loaded.binaries[place.1]? = some binary ∧
        place.2 < binary.entries.length ∧ FirstOfPath loaded.binaries place.1 binary := by
  rw [mem_work_place, relocated]
  constructor
  · intro ⟨binary, found, within, unmarked, isFirst⟩
    refine ⟨?_, binary, found, within, isFirst⟩
    by_contra old
    rw [binaries, List.getElem?_append_left (by omega)] at found
    exact unmarked ((history.marks _).mpr ⟨binary, List.mem_of_getElem? found, rfl⟩)
  · intro ⟨new, binary, found, within, isFirst⟩
    refine ⟨binary, found, within, ?_, isFirst⟩
    intro isMarked
    obtain ⟨other, member, same⟩ := (history.marks _).mp isMarked
    refine isFirst other ?_ same
    rw [binaries, List.take_append, List.take_of_length_le new]
    exact List.mem_append_left _ member

theorem History.scopes_append (history : History host loader)
    (binaries : loader.binaries.length ≤ more.length) (added : ∀ record ∈ records, record.scope = more.length) :
    (loader.processed ++ records).Pairwise fun first second => first.scope ≤ second.scope := by
  refine List.pairwise_append.mpr ⟨history.scopes, ?_, ?_⟩
  · refine List.Pairwise.imp_of_mem ?_ (List.pairwise_of_forall fun _ _ => trivial)
    intro first second inFirst inSecond _
    rw [added first inFirst, added second inSecond]
  · intro first inFirst second inSecond
    rw [added second inSecond]
    exact Nat.le_trans (history.records first inFirst).scope binaries

theorem History.marks_append (history : History host loader) (key : PathKey) :
    key ∈ marked loader.relocated (loader.binaries ++ more).zipIdx ↔
      ∃ binary ∈ loader.binaries ++ more, pathKey binary.path = key := by
  rw [mem_marked, history.marks]
  constructor
  · intro either
    rcases either with ⟨binary, member, same⟩ | ⟨entry, member, same⟩
    · exact ⟨binary, List.mem_append_left more member, same⟩
    · exact ⟨entry.1, List.fst_mem_of_mem_zipIdx member, same⟩
  · intro ⟨binary, member, same⟩
    obtain ⟨index, found⟩ := List.mem_iff_getElem?.mp member
    exact .inr ⟨(binary, index), List.mem_zipIdx_iff_getElem?.mpr found, same⟩

theorem History.old_place (history : History host loader) {place : Nat × Nat}
    (member : place ∈ loader.processed.map Processed.place) : place.1 < loader.binaries.length := by
  obtain ⟨binary, found, _⟩ := (history.places place).mp member
  exact (List.getElem?_eq_some_iff.mp found).1

/-- The history after a call that loads and relocates. -/
theorem History.step {loaded next : DynLoader} {steps : Nat} {path : Path} (history : History host loader)
    (loads : loader.loadDependingLibs host steps path = .ok loaded)
    (relocates : loaded.relocate host = .ok next) : History host next := by
  obtain ⟨more, binaries, relocated, processed⟩ := loadDependingLibs_history loads
  obtain ⟨records, passed, same⟩ := relocate_pass relocates
  have added := pass_records passed fun item member => DynLoader.mem_work member
  have worked := pass_places passed
  have work {place : Nat × Nat} := @History.mem_work host more loader loaded place history binaries relocated
  have longer : loader.binaries.length ≤ loaded.binaries.length := by
    rw [binaries, List.length_append]
    omega
  rw [same, processed, relocated]
  constructor
  · intro record member
    rcases List.mem_append.mp member with old | new
    · change record.Of host loaded.binaries
      rw [binaries]
      exact (history.records record old).append more
    · exact (added record new).2
  · exact history.scopes_append longer fun record member => (added record member).1
  · intro key
    change key ∈ marked loader.relocated loaded.binaries.zipIdx ↔ ∃ binary ∈ loaded.binaries, pathKey binary.path = key
    rw [binaries]
    exact history.marks_append key
  · change ((loader.processed ++ records).map Processed.place).Nodup
    rw [List.map_append, worked, List.nodup_append']
    refine ⟨history.once, work_places_nodup loaded, ?_⟩
    intro place old new
    exact absurd (history.old_place old) (Nat.not_lt_of_le (work.mp new).1)
  · intro place
    change place ∈ (loader.processed ++ records).map Processed.place ↔ ∃ binary, loaded.binaries[place.1]? = some binary ∧
      place.2 < binary.entries.length ∧ FirstOfPath loaded.binaries place.1 binary
    rw [List.map_append, worked, List.mem_append, work, history.places, binaries]
    by_cases old : place.1 < loader.binaries.length
    · simp [List.getElem?_append_left old, FirstOfPath.append_iff old, Nat.not_le_of_lt old]
    · simp [Nat.le_of_not_lt old]

theorem Run.history {mainPath : Path} (run : Run host mainPath loader) : History host loader := by
  refine run.invariant (History host) history_fresh ?_ ?_
  · intro loader steps path loaded next history loads relocates
    exact history.step loads relocates
  · intro loader next history same
    exact history.of_bookkeeping same

end DynLoader

end Sloader
