import Sloader.Run.History
import Sloader.Sample

namespace Sloader

open Data

/-! Is every relocation entry of every mapped binary processed exactly once?
`relocated_` is keyed by path, and `sloader_dlopen` loads its root whether or not
it is loaded already. -/

namespace DynLoader

variable {host : Host} {mainPath : Path} {loader : DynLoader} {index entry : Nat} {binary : ELFBinary}
  {rela : Elf64Rela}

def timesProcessed (loader : DynLoader) (index entry : Nat) (rela : Elf64Rela) : Nat :=
  loader.processed.countP fun record => record.binary = index ∧ record.entry = entry ∧ record.rela = rela

/-- Nothing in `binaries_` is left unprocessed, or processed twice. -/
def ProcessedOnce (loader : DynLoader) : Prop :=
  ∀ index binary, loader.binaries[index]? = some binary → ∀ entry rela, binary.entries[entry]? = some rela →
    loader.timesProcessed index entry rela = 1

theorem History.rela_eq (history : History host loader) {record : Processed} (member : record ∈ loader.processed)
    (place : record.place = (index, entry)) (found : loader.binaries[index]? = some binary)
    (entryAt : binary.entries[entry]? = some rela) : record.rela = rela := by
  obtain ⟨bin, atIndex, recorded, _⟩ := (history.records record member).entry
  obtain ⟨rfl, rfl⟩ := Prod.mk.inj place
  rw [found] at atIndex
  cases atIndex
  exact Option.some.inj (recorded.symm.trans entryAt)

theorem History.timesProcessed_eq (history : History host loader) (found : loader.binaries[index]? = some binary)
    (entryAt : binary.entries[entry]? = some rela) :
    loader.timesProcessed index entry rela = (loader.processed.map Processed.place).count (index, entry) := by
  rw [timesProcessed, List.count_eq_countP, List.countP_map]
  apply List.countP_congr
  intro record member
  simp only [Function.comp_apply, decide_eq_true_eq, beq_iff_eq, Processed.place, Prod.mk.injEq]
  constructor
  · intro ⟨atIndex, atEntry, _⟩
    exact ⟨atIndex, atEntry⟩
  · intro place
    exact ⟨place.1, place.2, history.rela_eq member (Prod.ext place.1 place.2) found entryAt⟩

theorem History.once_iff (history : History host loader) (found : loader.binaries[index]? = some binary)
    (entryAt : binary.entries[entry]? = some rela) :
    loader.timesProcessed index entry rela = 1 ↔ FirstOfPath loader.binaries index binary := by
  have within : entry < binary.entries.length := (List.getElem?_eq_some_iff.mp entryAt).1
  have isPlace : (index, entry) ∈ loader.processed.map Processed.place ↔ FirstOfPath loader.binaries index binary := by
    rw [history.places]
    constructor
    · intro ⟨other, same, _, isFirst⟩
      rw [found] at same
      exact Option.some.inj same ▸ isFirst
    · intro isFirst
      exact ⟨binary, found, within, isFirst⟩
  rw [history.timesProcessed_eq found entryAt, ← isPlace]
  constructor
  · intro once
    exact List.count_pos_iff.mp (by omega)
  · intro member
    exact List.count_eq_one_of_mem history.once member

/-- In every state of every run, all entries have been processed exactly once
just if no binary that comes after one of the same path has entries. -/
theorem Run.processedOnce_iff (run : Run host mainPath loader) :
    loader.ProcessedOnce ↔
      loader.binaries.Pairwise fun earlier later => pathKey earlier.path = pathKey later.path → later.entries = [] := by
  have history := run.history
  rw [List.pairwise_iff_getElem]
  constructor
  · intro once first second inFirst inSecond before same
    by_contra nonempty
    obtain ⟨rela, rest, entries⟩ := List.exists_cons_of_ne_nil nonempty
    have entryAt : loader.binaries[second].entries[0]? = some rela := by rw [entries, List.getElem?_cons_zero]
    have found : loader.binaries[second]? = some loader.binaries[second] := List.getElem?_eq_getElem inSecond
    have isFirst := (history.once_iff found entryAt).mp (once second _ found 0 rela entryAt)
    exact isFirst loader.binaries[first] (List.mem_take_iff_getElem.mpr ⟨first, by omega, rfl⟩) same
  · intro single index binary found entry rela entryAt
    refine (history.once_iff found entryAt).mpr ?_
    intro other member same
    obtain ⟨first, bound, rfl⟩ := List.mem_take_iff_getElem.mp member
    obtain ⟨within, rfl⟩ := List.getElem?_eq_some_iff.mp found
    have none := single first index (by omega) within (by omega) same
    simp [none] at entryAt

/-- An executable, and a library with one `RELATIVE` entry for it to open. -/
def dlopenHost : Host :=
  let executable : Sample.Object := {}
  let library : Sample.Object := { data := [0], symbols := [0, 0, 0], relas := [232, 8, 240] }
  Sample.host [(ascii "m", executable.file), (ascii "a", library.file)] fun _ => none

def openedTwice : Except Stop (DynLoader × DynLoader) := do
  let loader ← Sample.startup dlopenHost (ascii "/bin/m")
  let (_, once) ← loader.sloaderDlopen dlopenHost 12 (some (ascii "a"))
  let (_, twice) ← once.sloaderDlopen dlopenHost 12 (some (ascii "a"))
  return (once, twice)

theorem openedTwice_facts :
    openedTwice.toOption.map (fun loaders => decide (
      loaders.1.processed.length = 1 ∧
      (loaders.1.binaries.Pairwise fun earlier later => pathKey earlier.path ≠ pathKey later.path) ∧
      (loaders.2.binaries.map fun binary => (binary.path, binary.baseAddr, binary.entries.length)) =
        [(ascii "/bin/m", 0x1400000, 0), (ascii "/lib/a", 0x1800000, 1), (ascii "/lib/a", 0x1c00000, 1)] ∧
      ∀ binary ∈ loaders.2.binaries[2]?, ∀ rela ∈ binary.entries[0]?,
        loaders.2.timesProcessed 2 0 rela = 0)) = some true := by
  decide +kernel

theorem exists_openedTwice :
    ∃ once twice, openedTwice = .ok (once, twice) ∧ Run dlopenHost (ascii "/bin/m") once ∧
      Run dlopenHost (ascii "/bin/m") twice := by
  obtain ⟨⟨once, twice⟩, found, _⟩ := Option.map_eq_some_iff.mp openedTwice_facts
  have ran := eq_ok_of_toOption found
  have steps := ran
  simp only [openedTwice, Sample.startup, bind_eq_ok, pure_eq_ok, Prod.mk.injEq] at steps
  obtain ⟨loader, ⟨loaded, loads, relocates⟩, ⟨_, _⟩, first, ⟨_, _⟩, second, rfl, rfl⟩ := steps
  have opened : Run dlopenHost (ascii "/bin/m") _ := .dlopen (.startup loads relocates) first
  exact ⟨_, _, ran, opened, .dlopen opened second⟩

theorem Run.processedOnce_iff_openedOnce :
    ∃ loader, Run dlopenHost (ascii "/bin/m") loader ∧ loader.processed.length = 1 ∧ loader.ProcessedOnce := by
  obtain ⟨once, twice, ran, run, _⟩ := exists_openedTwice
  have facts := openedTwice_facts
  rw [ran] at facts
  obtain ⟨one, differ, _⟩ := of_decide_eq_true (Option.some.inj facts)
  refine ⟨once, run, one, run.processedOnce_iff.mpr (differ.imp ?_)⟩
  intro earlier later differs same
  exact absurd same differs

theorem Run.opened_again_unprocessed :
    ∃ loader, Run dlopenHost (ascii "/bin/m") loader ∧ ∃ binary rela,
      loader.binaries[2]? = some binary ∧ binary.path = ascii "/lib/a" ∧ binary.entries[0]? = some rela ∧
      loader.timesProcessed 2 0 rela = 0 ∧ ¬ loader.ProcessedOnce := by
  obtain ⟨once, twice, ran, _, run⟩ := exists_openedTwice
  have facts := openedTwice_facts
  rw [ran] at facts
  obtain ⟨_, _, mapped, missed⟩ := of_decide_eq_true (Option.some.inj facts)
  have third := congrArg (·[2]?) mapped
  simp only [List.getElem?_map, List.getElem?_cons_succ, List.getElem?_cons_zero, Option.map_eq_some_iff,
    Prod.mk.injEq] at third
  obtain ⟨binary, found, path, _, one⟩ := third
  have within : 0 < binary.entries.length := by omega
  have entryAt := List.getElem?_eq_getElem within
  have none := missed binary found _ entryAt
  refine ⟨twice, run, binary, binary.entries[0], found, path, entryAt, none, ?_⟩
  intro once
  exact Nat.zero_ne_one (none.symm.trans (once 2 binary found 0 _ entryAt))

end DynLoader

end Sloader
