import Sloader.Data.Fuel
import Sloader.Loader.Queue
import Sloader.Run

namespace Sloader

open Data

/-! Loading comes to an end.

No name in memory is longer than memory, so that the loop of `LoadDependingLibs`
cannot go on finding new ones.  Whatever the files, the state of the loader and
what becomes of the lookups, the loop returns or the process stops. -/

/-- The action is not left because the model was given too few steps. -/
abbrev Terminates {α : Type} (action : Except Stop α) : Prop :=
  Avoids Stop.outOfFuel action

variable {host : Host} {memory : Memory} {binary : ELFBinary} {name : CString}

theorem check_terminates {condition : Bool} {text : String} : Terminates (check condition text) := by
  cases condition with
  | true => exact avoids_ok
  | false => exact avoids_error (by simp)

theorem string_terminates {start : Address} : Terminates (memory.string start) := by
  unfold Memory.string
  split
  · exact avoids_ok
  · exact avoids_error (by simp)

namespace ELFBinary

theorem construct_terminates {path : Path} : Terminates (construct host path) := by
  unfold construct
  split
  · exact avoids_error (by simp)
  · exact check_terminates.bind fun _ _ => check_terminates.bind fun _ _ => avoids_pure

theorem loadSegment_terminates {mapping : Mapping} {ph : Elf64Phdr} :
    Terminates (binary.loadSegment host mapping ph) := by
  unfold loadSegment
  split
  · exact avoids_ok
  · exact check_terminates.bind fun _ _ => check_terminates.bind fun _ _ => check_terminates.bind fun _ _ => avoids_pure

theorem parseTag_terminates {dyn : Elf64Dyn} : Terminates (parseTag memory binary dyn) := by
  cases tag : dyn.dTag <;> simp only [parseTag, tag]
  case needed => exact string_terminates.bind fun _ _ => avoids_pure
  case runpath => exact string_terminates.bind fun _ _ => avoids_pure
  case rpath => exact string_terminates.bind fun _ _ => avoids_pure
  case pltrel => exact check_terminates.bind fun _ _ => avoids_pure
  case syment => exact check_terminates.bind fun _ _ => avoids_pure
  all_goals exact avoids_ok

theorem entryCount_terminates {size entry : Elf64Xword} {text : String} : Terminates (entryCount size entry text) := by
  unfold entryCount
  split
  · exact avoids_error (by simp)
  · exact check_terminates.bind fun _ _ => avoids_pure

theorem parseRelas_terminates : Terminates (binary.parseRelas memory) := by
  unfold parseRelas
  split
  · exact avoids_ok
  · exact entryCount_terminates.bind fun _ _ => avoids_pure

theorem parsePltrelas_terminates : Terminates (binary.parsePltrelas memory) := by
  unfold parsePltrelas
  split
  · exact avoids_ok
  · exact entryCount_terminates.bind fun _ _ => check_terminates.bind fun _ _ => avoids_pure

theorem showSym_terminates {symbol : Elf64Sym} : Terminates (binary.showSym memory symbol) := by
  refine string_terminates.bind fun _ _ => ?_
  split
  · exact avoids_pure
  · exact avoids_error (by simp)

theorem parseSymtabs_terminates : Terminates (binary.parseSymtabs memory) := by
  unfold parseSymtabs
  split
  · exact avoids_ok
  · dsimp only
    split
    · exact avoids_error (by simp)
    · exact (Avoids.forM (fun _ => showSym_terminates) _).bind fun _ _ => avoids_pure

theorem parseDynamic_terminates : Terminates (binary.parseDynamic memory) := by
  refine check_terminates.bind fun _ _ => check_terminates.bind fun _ _ => check_terminates.bind fun _ _ => ?_
  refine (Avoids.foldlM (fun _ _ => parseTag_terminates) _ _).bind fun _ _ => ?_
  exact parseRelas_terminates.bind fun _ _ => parsePltrelas_terminates.bind fun _ _ => parseSymtabs_terminates

theorem load_terminates {baseAddrArg : Elf64Addr} : Terminates (binary.load host memory baseAddrArg) := by
  refine (Avoids.foldlM (fun _ _ => loadSegment_terminates) _ _).bind fun _ _ => ?_
  exact parseDynamic_terminates.bind fun _ _ => avoids_pure

end ELFBinary

theorem readLdsoconfDfs_terminates {depth files : Nat} {res : List Path} {filename : Path} :
    Terminates (readLdsoconfDfs host depth files res filename) := by
  induction depth generalizing files res filename with
  | zero => exact avoids_error (by simp)
  | succ depth ih =>
      cases files with
      | zero => exact avoids_ok
      | succ files =>
          unfold readLdsoconfDfs
          split
          · exact avoids_ok
          · split
            · exact avoids_ok
            · apply Avoids.foldlM
              intro res directive
              cases directive with
              | directory path => exact avoids_ok
              | «include» pattern => exact Avoids.foldlM (fun _ _ => ih) _ _

theorem ask_terminates {lookup : Lookup} : Terminates lookup.ask := by
  unfold Lookup.ask
  split
  · exact avoids_error (by simp)
  · exact avoids_ok

theorem searchDirectory_terminates {directory : Path} : Terminates (searchDirectory host name directory) := by
  refine ask_terminates.bind fun isDirectory _ => ?_
  split
  · split
    · exact avoids_pure
    · split
      · exact avoids_error (by simp)
      · exact avoids_pure
  · exact avoids_pure

theorem searchDirectories_terminates {directories : List Path} :
    Terminates (searchDirectories host name directories) := by
  induction directories with
  | nil => exact avoids_error (by simp)
  | cons directory rest ih =>
      refine searchDirectory_terminates.bind fun found _ => ?_
      cases found with
      | none => exact ih
      | some path => exact avoids_pure

theorem isLibraryPath_terminates : Terminates (isLibraryPath host name) := by
  unfold isLibraryPath
  split
  · exact ask_terminates
  · exact avoids_ok

theorem findLibrary_terminates {runpath rpath : Option Path} : Terminates (findLibrary host name runpath rpath) := by
  refine isLibraryPath_terminates.bind fun isPath _ => ?_
  split
  · exact avoids_pure
  · exact (readLdsoconfDfs_terminates.bind fun _ _ => avoids_pure).bind fun _ _ => searchDirectories_terminates

theorem searchTable_terminates {accept : Elf64Sym → Bool} {index : Nat} {symbols : List Elf64Sym} :
    Terminates (searchTable memory binary name accept index symbols) := by
  induction symbols generalizing index with
  | nil => exact avoids_ok
  | cons symbol rest ih =>
      refine string_terminates.bind fun _ _ => ?_
      split
      · exact avoids_pure
      · exact ih

theorem searchPass_terminates {accept : Elf64Sym → Bool} {index : Nat} {binaries : List ELFBinary} :
    Terminates (searchPass memory name accept index binaries) := by
  induction binaries generalizing index with
  | nil => exact avoids_ok
  | cons binary rest ih =>
      refine searchTable_terminates.bind fun found _ => ?_
      cases found with
      | none => exact ih
      | some place => exact avoids_pure

theorem searchSym_terminates {binaries : List ELFBinary} {skipMain : Bool} :
    Terminates (searchSym memory binaries name skipMain) := by
  refine searchPass_terminates.bind fun found _ => ?_
  cases found with
  | none => exact searchPass_terminates
  | some place => exact avoids_pure

theorem getSymbolAddr_terminates {symbolIndex : Nat} : Terminates (binary.getSymbolAddr symbolIndex) := by
  unfold ELFBinary.getSymbolAddr
  split
  · exact avoids_ok
  · exact avoids_error (by simp)

theorem symbolAddr_terminates {binaries : List ELFBinary} : Terminates (symbolAddr host memory binaries name) := by
  refine searchSym_terminates.bind fun opt _ => ?_
  split
  · exact avoids_pure
  · split
    · exact getSymbolAddr_terminates.bind fun _ _ => avoids_pure
    · exact avoids_error (by simp)
  · exact avoids_pure

theorem tlsSymOffsetFrom_terminates {offset : Elf64Addr} {binaries : List ELFBinary} :
    Terminates (tlsSymOffsetFrom memory name offset binaries) := by
  induction binaries generalizing offset with
  | nil => exact avoids_ok
  | cons binary rest ih =>
      refine searchTable_terminates.bind fun found _ => ?_
      cases found with
      | none => exact ih
      | some place =>
          dsimp only
          split
          · exact avoids_pure
          · exact avoids_error (by simp)

theorem tlsSymOffset_terminates {binaries : List ELFBinary} : Terminates (tlsSymOffset host memory binaries name) := by
  refine tlsSymOffsetFrom_terminates.bind fun found _ => ?_
  split
  · exact avoids_pure
  · split
    · exact avoids_pure
    · exact avoids_error (by simp)

theorem resolve_terminates {binaries : List ELFBinary} {r : Elf64Rela} :
    Terminates (resolve host memory binaries binary r name) := by
  unfold resolve
  split
  all_goals try exact avoids_pure
  -- the entries that a symbol's address is looked up for
  all_goals try
    refine symbolAddr_terminates.bind fun found _ => ?_
    cases found <;> exact avoids_pure
  · exact tlsSymOffset_terminates.bind fun _ _ => avoids_pure
  · refine searchSym_terminates.bind fun opt _ => ?_
    split
    · exact avoids_pure
    · split
      · exact avoids_pure
      · exact avoids_error (by simp)
    · exact avoids_error (by simp)
  · exact avoids_error (by simp)

namespace DynLoader

variable {loader : DynLoader} {request : Request} {queue : List Request}

theorem relocate_terminates : Terminates (loader.relocate host) := by
  apply Avoids.foldlM
  intro state item
  unfold relocateBinary
  dsimp only
  split
  · exact avoids_ok
  · apply Avoids.foldlM
    intro state entry
    refine Avoids.bind ?_ fun _ _ => avoids_pure
    unfold resolveEntry
    split
    · exact avoids_error (by simp)
    · exact string_terminates.bind fun _ _ => resolve_terminates.bind fun _ _ => avoids_pure

theorem emplace_terminates {path : Path} : Terminates (loader.emplace host path) :=
  ELFBinary.construct_terminates.bind fun _ _ => ELFBinary.load_terminates.bind fun _ _ => avoids_pure

theorem popRequest_terminates : Terminates (loader.popRequest host request queue) := by
  unfold popRequest
  split
  · exact avoids_ok
  · split
    · exact avoids_ok
    · exact findLibrary_terminates.bind fun _ _ => emplace_terminates.bind fun _ _ => avoids_pure

/-- The measure is that of `Visits.terminates`, but a turn may also stop the process. -/
theorem drainQueue_settles (bounded : ∀ request ∈ queue, request.libraryName ∈ names) :
    Settles Stop.outOfFuel fun steps => drainQueue host steps loader queue := by
  induction count : loader.unseen using Nat.strong_induction_on generalizing loader queue with
  | _ count byCount =>
  induction length : queue.length using Nat.strong_induction_on generalizing loader queue with
  | _ length byLength =>
      cases queue with
      | nil => exact ⟨0, avoids_ok, fun steps _ => by cases steps <;> rfl⟩
      | cons request queue =>
          refine Settles.succ (Settles.bind popRequest_terminates fun next popped => ?_) fun steps => rfl
          have restBounded := popRequest_bounded
            (fun other member => bounded other (List.mem_cons_of_mem request member)) popped
          rcases popRequest_decreases (bounded request List.mem_cons_self) popped with fewer | ⟨same, shorter⟩
          · exact byCount _ (count ▸ fewer) restBounded rfl
          · refine byLength next.2.length ?_ restBounded (same.trans count) rfl
            rw [shorter, ← length, List.length_cons]
            exact Nat.lt_succ_self _

theorem loadDependingLibs_settles {rootPath : Path} :
    Settles Stop.outOfFuel fun steps => loader.loadDependingLibs host steps rootPath := by
  refine Settles.bind (emplace_terminates.bind fun _ _ => avoids_pure) fun rooted ran => ?_
  obtain ⟨binary, emplaced, opened, _, requests⟩ := loadRoot_spec ran
  apply drainQueue_settles
  rw [requests]
  exact requests_bounded (emplace_neededs opened)

/-- From every state of the loader, for every name and whatever the files hold,
`sloader_dlopen` comes to an end, as the loading of the program does: it returns,
or the process stops. -/
theorem sloaderDlopen_settles (host : Host) (loader : DynLoader) :
    (∀ rootPath, Settles Stop.outOfFuel fun steps => loader.loadDependingLibs host steps rootPath >>= relocate host) ∧
    ∀ filename, Settles Stop.outOfFuel fun steps => loader.sloaderDlopen host steps filename := by
  have loads (rootPath : Path) : Settles Stop.outOfFuel fun steps =>
      loader.loadDependingLibs host steps rootPath >>= relocate host :=
    loadDependingLibs_settles.andThen fun _ => relocate_terminates
  refine ⟨loads, ?_⟩
  intro filename
  cases filename with
  | none => exact Avoids.settles avoids_ok
  | some filename =>
      cases wanted : isSkipped filename with
      | true =>
          simp only [sloaderDlopen, wanted, if_true]
          exact Avoids.settles avoids_ok
      | false =>
          simp only [sloaderDlopen, wanted, Bool.false_eq_true, if_false]
          refine Settles.bind findLibrary_terminates fun path _ => ?_
          exact loadDependingLibs_settles.andThen fun loaded => relocate_terminates.bind fun _ _ => avoids_pure

end DynLoader

end Sloader
