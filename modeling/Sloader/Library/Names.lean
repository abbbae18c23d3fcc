import Sloader.Library
import Sloader.Relocate.Pass

namespace Sloader

open Data

/-! The names that reach `FindLibrary`: lists of directories, paths, and names
that the callers of it leave out. -/

variable {host : Host} {name : CString} {path : Path} {directories : List Path}

def colon : UInt8 := 58

/-- `d1:d2:...:dn`. -/
def joinPaths (paths : List Path) : Path :=
  [colon].intercalate paths

/-- The search order in which a string stands for all its directories. -/
def splicedDirectory (host : Host) (runpath rpath : Option (List Path)) : Except Stop (List Path) := do
  let sloaderLibraryPath := host.sloaderLibraryPath.getD []
  let ldsoconfs ← readLdsoconf host
  return (if sloaderLibraryPath = [] then [] else [sloaderLibraryPath]) ++ runpath.getD [] ++
    rpath.getD [] ++ ldsoconfs ++
    [ascii "/lib", ascii "/usr/lib", ascii "/usr/lib64", ascii "/usr/lib/x86_64-linux-gnu", ascii "."]

/-- The file that a directory has for the name, as far as the directory can be read. -/
def readableMatch (host : Host) (name : CString) (directory : Path) : Option Path :=
  if host.isDirectory directory = { answer := true } then
    ((host.directoryIterator directory).entries.find? name.isPrefixOf).map (appendPath directory)
  else none

/-- The search along a given order, which goes on at a directory that it cannot read. -/
def findAlong (host : Host) (name : CString) (order : Except Stop (List Path)) : Except Stop Path := do
  let directories ← order
  match directories.findSome? (readableMatch host name) with
  | some path => return path
  | none => .error .abort

/-- No directory fails before one that has a match. -/
def Host.Undisturbed (host : Host) (name : CString) (order : Except Stop (List Path)) : Prop :=
  ∀ before directory after, order = .ok (before ++ directory :: after) →
    (∀ other ∈ before, host.Passes name other) → ¬ host.Fails name directory

theorem readableMatch_passes {directory : Path} (passes : host.Passes name directory) :
    readableMatch host name directory = none := by
  unfold readableMatch
  split
  · rename_i isDirectory
    rw [find_starting_eq_none.mpr (passes.missing (by rw [isDirectory])), Option.map_none]
  · rfl

theorem findAlong_append {before directories : List Path} (passes : ∀ other ∈ before, host.Passes name other) :
    findAlong host name (.ok (before ++ directories)) = findAlong host name (.ok directories) := by
  have missing : before.findSome? (readableMatch host name) = none := by
    rw [List.findSome?_eq_none_iff]
    exact fun other member => readableMatch_passes (passes other member)
  simp only [findAlong, bind, Except.bind, List.findSome?_append, missing, Option.none_or]

theorem findAlong_takes {directory : Path} {entry : CString} {before after : List Path}
    (passes : ∀ other ∈ before, host.Passes name other) (takes : host.Takes name directory entry) :
    findAlong host name (.ok (before ++ directory :: after)) = .ok (appendPath directory entry) := by
  have taken : readableMatch host name directory = some (appendPath directory entry) := by
    rw [readableMatch, if_pos takes.isDirectory, find_starting_eq_some.mpr ⟨takes.starts, takes.listed⟩,
      Option.map_some]
  rw [findAlong_append passes]
  simp only [findAlong, bind, Except.bind, List.findSome?_cons, taken]
  rfl

theorem findAlong_ne_filesystemError (directories : List Path) :
    findAlong host name (.ok directories) ≠ .error .filesystemError := by
  simp only [findAlong, bind, Except.bind]
  cases directories.findSome? (readableMatch host name) with
  | none => simp
  | some path => simp [pure, Except.pure]

/-- `FindLibrary` goes along the same order, as long as nothing fails. -/
theorem searchDirectories_eq_findAlong :
    searchDirectories host name directories = findAlong host name (.ok directories) ↔
      host.Undisturbed name (.ok directories) := by
  constructor
  · intro agrees before directory after split passes fails
    cases split
    rw [searchDirectories_fails passes fails] at agrees
    exact findAlong_ne_filesystemError _ agrees.symm
  · intro undisturbed
    rcases host.searches name directories with every | ⟨before, directory, after, rfl, earlier, ends⟩
    · rw [searchDirectories_passes every, ← List.append_nil directories, findAlong_append every]
      rfl
    · rcases host.turns name directory with ⟨entry, takes⟩ | passes | fails
      · rw [searchDirectories_takes earlier takes, findAlong_takes earlier takes]
      · contradiction
      · exact absurd fails (undisturbed before directory after rfl earlier)

theorem findLibrary_bare (bare : slash ∉ name) (host : Host) (runpath rpath : Option Path) :
    findLibrary host name runpath rpath = libraryDirectory host runpath rpath >>= searchDirectories host name := by
  rw [findLibrary, isLibraryPath_of_bare bare, filename_of_bare bare]
  rfl

theorem findLibrary_along_iff {runpath rpath : Option Path} (bare : slash ∉ name) :
    findLibrary host name runpath rpath = findAlong host name (libraryDirectory host runpath rpath) ↔
      host.Undisturbed name (libraryDirectory host runpath rpath) := by
  rw [findLibrary_bare bare]
  cases libraryDirectory host runpath rpath with
  | ok directories => exact searchDirectories_eq_findAlong
  | error stop => exact iff_of_true rfl fun before directory after split => by contradiction

theorem joinPaths_singleton (path : Path) : joinPaths [path] = path := by
  simp [joinPaths]

theorem colon_mem_joinPaths {first second : Path} (rest : List Path) :
    colon ∈ joinPaths (first :: second :: rest) := by
  simp [joinPaths, List.intercalate]

theorem libraryDirectory_single {runpath rpath : Option (List Path)}
    (single : ∀ paths, runpath = some paths ∨ rpath = some paths → paths.length = 1) :
    libraryDirectory host (runpath.map joinPaths) (rpath.map joinPaths) = splicedDirectory host runpath rpath := by
  have same (list : Option (List Path)) (one : ∀ paths, list = some paths → paths.length = 1) :
      (list.map joinPaths).toList = list.getD [] := by
    cases list with
    | none => rfl
    | some paths =>
        obtain ⟨path, rfl⟩ := List.length_eq_one_iff.mp (one paths rfl)
        simp [joinPaths_singleton]
  simp only [libraryDirectory, splicedDirectory, same runpath fun paths found => single paths (.inl found),
    same rpath fun paths found => single paths (.inr found)]

/-- A file system with one directory, which has one file. -/
def Host.oneFile (directory : Path) (name : CString) : Host :=
  { Sample.host [] (fun _ => none) with
    isDirectory := fun path => { answer := path = directory }
    directoryIterator := fun _ => { entries := [name] } }

theorem oneFile_passes {directory other : Path} (different : other ≠ directory) (name : CString) :
    (Host.oneFile directory name).Passes name other where
  answers := rfl
  unread _ := rfl
  missing isDirectory := absurd (of_decide_eq_true isDirectory) different

theorem oneFile_takes (directory : Path) (name : CString) :
    (Host.oneFile directory name).Takes name directory name where
  isDirectory := by simp [Host.oneFile]
  starts := List.prefix_rfl
  listed := ⟨[], [], rfl, by simp⟩

theorem oneFile_undisturbed (directory : Path) (name : CString) (order : Except Stop (List Path)) :
    (Host.oneFile directory name).Undisturbed name order := by
  intro before other after _ _ fails
  rcases fails with throws | ⟨_, unread, _⟩
  · simp [Host.oneFile] at throws
  · simp [Host.oneFile] at unread

theorem findAlong_oneFile (directory : Path) (name : CString) (directories : List Path) :
    findAlong (.oneFile directory name) name (.ok directories) =
      if directory ∈ directories then .ok (appendPath directory name) else .error .abort := by
  by_cases member : directory ∈ directories
  · rw [if_pos member]
    obtain ⟨before, after, rfl, absent⟩ := List.eq_append_cons_of_mem member
    have passes : ∀ other ∈ before, (Host.oneFile directory name).Passes name other :=
      fun other earlier => oneFile_passes (ne_of_mem_of_not_mem earlier absent) name
    exact findAlong_takes passes (oneFile_takes directory name)
  · have passes : ∀ other ∈ directories, (Host.oneFile directory name).Passes name other :=
      fun other inside => oneFile_passes (ne_of_mem_of_not_mem inside member) name
    rw [if_neg member, ← List.append_nil directories, findAlong_append passes]
    rfl

/-- A list of absolute directories, as in `DT_RUNPATH` and `DT_RPATH`. -/
def DirectoryList (paths : List Path) : Prop :=
  paths ≠ [] ∧ ∀ path ∈ paths, isAbsolute path = true ∧ colon ∉ path

theorem splicedDirectory_oneFile (directory : Path) (name : CString) {runpath rpath : Option (List Path)}
    (valid : ∀ paths, runpath = some paths ∨ rpath = some paths → DirectoryList paths) :
    ∃ directories, splicedDirectory (.oneFile directory name) runpath rpath = .ok directories ∧
      ∀ path ∈ directories, colon ∉ path := by
  have listed (list : Option (List Path)) (lists : ∀ paths, list = some paths → DirectoryList paths) :
      ∀ path ∈ list.getD [], colon ∉ path := by
    intro path member
    cases list with
    | none => contradiction
    | some paths => exact ((lists paths rfl).2 path member).2
  refine ⟨runpath.getD [] ++ rpath.getD [] ++
    [ascii "/lib", ascii "/usr/lib", ascii "/usr/lib64", ascii "/usr/lib/x86_64-linux-gnu", ascii "."], ?_, ?_⟩
  · simp [splicedDirectory, readLdsoconf, readLdsoconfDfs, Host.oneFile, Sample.host, bind, Except.bind, pure,
      Except.pure]
  · intro path member
    cases List.mem_append.mp member with
    | inl inLists =>
        cases List.mem_append.mp inLists with
        | inl inRunpath => exact listed runpath (fun paths found => valid paths (.inl found)) path inRunpath
        | inr inRpath => exact listed rpath (fun paths found => valid paths (.inr found)) path inRpath
    | inr builtin =>
        simp only [List.mem_cons, List.not_mem_nil, or_false] at builtin
        rcases builtin with rfl | rfl | rfl | rfl | rfl <;> decide

theorem libraryDirectory_oneFile (directory : Path) (name : CString) (runpath rpath : Option Path) :
    libraryDirectory (.oneFile directory name) runpath rpath = .ok (runpath.toList ++ rpath.toList ++
      [ascii "/lib", ascii "/usr/lib", ascii "/usr/lib64", ascii "/usr/lib/x86_64-linux-gnu", ascii "."]) := by
  simp [libraryDirectory, readLdsoconf, readLdsoconfDfs, Host.oneFile, Sample.host, bind, Except.bind, pure,
    Except.pure]

theorem findLibrary_lists_iff {runpath rpath : Option (List Path)}
    (valid : ∀ paths, runpath = some paths ∨ rpath = some paths → DirectoryList paths) :
    (∀ host name, slash ∉ name → host.Undisturbed name (splicedDirectory host runpath rpath) →
        findLibrary host name (runpath.map joinPaths) (rpath.map joinPaths) =
          findAlong host name (splicedDirectory host runpath rpath)) ↔
      ∀ paths, runpath = some paths ∨ rpath = some paths → paths.length = 1 := by
  constructor
  · intro searched paths given
    cases paths with
    | nil => exact absurd rfl (valid [] given).1
    | cons first rest =>
        cases rest with
        | nil => rfl
        | cons second rest =>
            -- a file in a directory whose name is the whole string
            have found := searched (.oneFile (joinPaths (first :: second :: rest)) (ascii "a")) (ascii "a") (by decide)
              (oneFile_undisturbed _ _ _)
            obtain ⟨directories, spliced, plain⟩ :=
              splicedDirectory_oneFile (joinPaths (first :: second :: rest)) (ascii "a") valid
            have absent : joinPaths (first :: second :: rest) ∉ directories :=
              fun member => plain _ member (colon_mem_joinPaths rest)
            rw [(findLibrary_along_iff (by decide)).mpr (oneFile_undisturbed _ _ _), libraryDirectory_oneFile, spliced,
              findAlong_oneFile, findAlong_oneFile, if_neg absent, if_pos] at found
            · contradiction
            · rcases given with rfl | rfl <;> simp
  · intro single host name bare undisturbed
    rw [← libraryDirectory_single single] at undisturbed ⊢
    exact (findLibrary_along_iff bare).mpr undisturbed

/-- `FindLibrary` returns the file at the path itself, if there is one, and no
other file. -/
def PathHonoured (sameFile : Path → Path → Prop) (host : Host) (name : CString) (runpath rpath : Option Path) : Prop :=
  ((host.fileExists name).answer = true → ∃ path, findLibrary host name runpath rpath = .ok path ∧ sameFile path name) ∧
  ∀ path, findLibrary host name runpath rpath = .ok path → sameFile path name

/-- The path is absolute and leads to a file, or the search for its last component
comes to the same file. -/
def Host.Designates (host : Host) (sameFile : Path → Path → Prop) (name : CString) (runpath rpath : Option Path) :
    Prop :=
  (isAbsolute name = true ∧ host.fileExists name = { answer := true }) ∨
  (¬ (isAbsolute name = true ∧ (host.fileExists name).throws = true) ∧
    ∃ directories path, libraryDirectory host runpath rpath = .ok directories ∧
      host.FirstMatch (filename name) directories path ∧ sameFile path name)

/-- The path is absolute and cannot be looked up, or the search comes to nothing. -/
def Host.Loses (host : Host) (name : CString) (runpath rpath : Option Path) : Prop :=
  (isAbsolute name = true ∧ (host.fileExists name).throws = true) ∨
  ∀ directories path, libraryDirectory host runpath rpath = .ok directories →
    ¬ host.FirstMatch (filename name) directories path

section Honoured

variable {sameFile : Path → Path → Prop} {runpath rpath : Option Path}

theorem isLibraryPath_cases (host : Host) (name : CString) :
    (isAbsolute name = true ∧ host.fileExists name = { answer := true } ∧ isLibraryPath host name = .ok true) ∨
    (isAbsolute name = true ∧ (host.fileExists name).throws = true ∧
      isLibraryPath host name = .error .filesystemError) ∨
    (¬ (isAbsolute name = true ∧ (host.fileExists name).throws = true) ∧
      ¬ (isAbsolute name = true ∧ host.fileExists name = { answer := true }) ∧
      isLibraryPath host name = .ok false) := by
  cases absolute : isAbsolute name with
  | false => exact .inr (.inr ⟨by simp, by simp, by simp [isLibraryPath, absolute]⟩)
  | true =>
      rcases looked : host.fileExists name with ⟨answer, throws⟩
      cases throws with
      | true => exact .inr (.inl ⟨rfl, rfl, by simp [isLibraryPath, absolute, looked, Lookup.ask]⟩)
      | false =>
          cases answer with
          | true => exact .inl ⟨rfl, rfl, by simp [isLibraryPath, absolute, looked, Lookup.ask]⟩
          | false =>
              exact .inr (.inr ⟨by simp, by simp, by simp [isLibraryPath, absolute, looked, Lookup.ask]⟩)

theorem findLibrary_path (sought : isLibraryPath host name = .ok true) :
    findLibrary host name runpath rpath = .ok name := by
  rw [findLibrary, sought]
  rfl

theorem findLibrary_throws {stop : Stop} (sought : isLibraryPath host name = .error stop) :
    findLibrary host name runpath rpath = .error stop := by
  rw [findLibrary, sought]
  rfl

theorem designates_iff (reflexive : ∀ path, sameFile path path) :
    host.Designates sameFile name runpath rpath ↔
      ∃ path, findLibrary host name runpath rpath = .ok path ∧ sameFile path name := by
  rcases isLibraryPath_cases host name with ⟨absolute, exists_, sought⟩ | ⟨absolute, throws, sought⟩ |
    ⟨answers, other, sought⟩
  · exact iff_of_true (.inl ⟨absolute, exists_⟩) ⟨name, findLibrary_path sought, reflexive name⟩
  · rw [findLibrary_throws sought]
    refine iff_of_false ?_ (by simp)
    intro designates
    rcases designates with ⟨_, exists_⟩ | ⟨answers, _⟩
    · rw [exists_] at throws
      contradiction
    · exact answers ⟨absolute, throws⟩
  · simp only [Host.Designates, answers, other, findLibrary_eq_ok sought, false_or, not_false_eq_true, true_and]
    constructor
    · intro searched
      obtain ⟨directories, path, order, first, same⟩ := searched
      exact ⟨path, ⟨directories, order, first⟩, same⟩
    · intro searched
      obtain ⟨path, ⟨directories, order, first⟩, same⟩ := searched
      exact ⟨directories, path, order, first, same⟩

theorem loses_iff (missing : (host.fileExists name).answer = false) :
    host.Loses name runpath rpath ↔ ∀ path, findLibrary host name runpath rpath ≠ .ok path := by
  rcases isLibraryPath_cases host name with ⟨_, exists_, _⟩ | ⟨absolute, throws, sought⟩ | ⟨answers, _, sought⟩
  · rw [exists_] at missing
    contradiction
  · rw [findLibrary_throws sought]
    exact iff_of_true (.inl ⟨absolute, throws⟩) (by simp)
  · simp only [Host.Loses, answers, false_or, ne_eq, findLibrary_eq_ok sought, not_exists, not_and]
    exact forall_comm

theorem pathHonoured_iff (reflexive : ∀ path, sameFile path path) :
    PathHonoured sameFile host name runpath rpath ↔
      host.Designates sameFile name runpath rpath ∨
      ((host.fileExists name).answer = false ∧ host.Loses name runpath rpath) := by
  constructor
  · intro honoured
    cases found : findLibrary host name runpath rpath with
    | ok path => exact .inl ((designates_iff reflexive).mpr ⟨path, found, honoured.2 path found⟩)
    | error stop =>
        have lost : ∀ path, findLibrary host name runpath rpath ≠ .ok path := by simp [found]
        have missing : (host.fileExists name).answer = false := by
          rw [← Bool.not_eq_true]
          intro exists_
          obtain ⟨path, returned, _⟩ := honoured.1 exists_
          exact lost path returned
        exact .inr ⟨missing, (loses_iff missing).mpr lost⟩
  · intro kinds
    rcases kinds with designates | ⟨missing, loses⟩
    · obtain ⟨path, found, same⟩ := (designates_iff reflexive).mp designates
      refine ⟨fun _ => ⟨path, found, same⟩, fun other returned => ?_⟩
      rw [found] at returned
      cases returned
      exact same
    · have lost := (loses_iff missing).mp loses
      exact ⟨by simp [missing], fun path returned => absurd returned (lost path)⟩

end Honoured

/-- Strings of several directories are not taken apart, and a directory that cannot
be read ends the process.  A path is honoured if it is absolute and leads to a file,
if the search for its last component happens to come to the same file, or if there is
nothing to find. -/
theorem findLibrary_strings {runpaths rpaths : Option (List Path)}
    (valid : ∀ paths, runpaths = some paths ∨ rpaths = some paths → DirectoryList paths)
    (sameFile : Path → Path → Prop) (reflexive : ∀ path, sameFile path path) (host : Host) (name : CString)
    (runpath rpath : Option Path) :
    ((∀ host name, slash ∉ name → host.Undisturbed name (splicedDirectory host runpaths rpaths) →
        findLibrary host name (runpaths.map joinPaths) (rpaths.map joinPaths) =
          findAlong host name (splicedDirectory host runpaths rpaths)) ↔
      ∀ paths, runpaths = some paths ∨ rpaths = some paths → paths.length = 1) ∧
    ((∀ paths, runpaths = some paths ∨ rpaths = some paths → paths.length = 1) → ∀ host name, slash ∉ name →
      (findLibrary host name (runpaths.map joinPaths) (rpaths.map joinPaths) =
          findAlong host name (splicedDirectory host runpaths rpaths) ↔
        host.Undisturbed name (splicedDirectory host runpaths rpaths))) ∧
    (PathHonoured sameFile host name runpath rpath ↔
      host.Designates sameFile name runpath rpath ∨
      ((host.fileExists name).answer = false ∧ host.Loses name runpath rpath)) := by
  refine ⟨findLibrary_lists_iff valid, fun single host name bare => ?_, pathHonoured_iff reflexive⟩
  rw [← libraryDirectory_single single]
  exact findLibrary_along_iff bare

namespace Sample

theorem optA_list : ∀ paths, some [ascii "/opt/a"] = some paths ∨ none = some paths → DirectoryList paths := by
  intro paths given
  cases given with
  | inl same =>
      cases same
      refine ⟨by simp, fun path member => ?_⟩
      rw [List.mem_singleton.mp member]
      decide
  | inr absent => contradiction

theorem findLibrary_single_directory_and_absolute :
    (∀ host name, slash ∉ name → (findLibrary host name (some (joinPaths [ascii "/opt/a"])) none =
        findAlong host name (splicedDirectory host (some [ascii "/opt/a"]) none) ↔
      host.Undisturbed name (splicedDirectory host (some [ascii "/opt/a"]) none))) ∧
    PathHonoured (· = ·) (Sample.host [(ascii "libx.so", [])] fun _ => none) (ascii "/lib/libx.so") none none := by
  obtain ⟨_, lists, paths⟩ := findLibrary_strings optA_list (· = ·) (fun _ => rfl)
    (Sample.host [(ascii "libx.so", [])] fun _ => none) (ascii "/lib/libx.so") none none
  constructor
  · apply lists
    intro paths given
    cases given with
    | inl same =>
        cases same
        rfl
    | inr absent => contradiction
  · exact paths.mpr (.inl (.inl ⟨rfl, rfl⟩))

/-- The file is in the first of the two directories, and `FindLibrary` gives up;
the file is at the relative path, and `FindLibrary` takes one of the same name. -/
theorem findLibrary_misses_list_and_path :
    (DirectoryList [ascii "/opt/a", ascii "/opt/b"] ∧
      findAlong (.oneFile (ascii "/opt/a") (ascii "libx.so")) (ascii "libx.so")
          (splicedDirectory (.oneFile (ascii "/opt/a") (ascii "libx.so"))
            (some [ascii "/opt/a", ascii "/opt/b"]) none) = .ok (ascii "/opt/a/libx.so") ∧
      findLibrary (.oneFile (ascii "/opt/a") (ascii "libx.so")) (ascii "libx.so")
        (some (joinPaths [ascii "/opt/a", ascii "/opt/b"])) none = .error .abort) ∧
    ((Sample.host [(ascii "libx.so", [])] fun _ => none).fileExists (ascii "sub/libx.so")).answer = true ∧
      findLibrary (Sample.host [(ascii "libx.so", [])] fun _ => none) (ascii "sub/libx.so") none none =
        .ok (ascii "/lib/libx.so") ∧
      ¬ PathHonoured (· = ·) (Sample.host [(ascii "libx.so", [])] fun _ => none) (ascii "sub/libx.so") none none := by
  refine ⟨⟨⟨by simp, ?_⟩, rfl, rfl⟩, rfl, rfl, ?_⟩
  · intro path member
    simp only [List.mem_cons, List.not_mem_nil, or_false] at member
    rcases member with rfl | rfl <;> decide
  · intro honoured
    have same := honoured.2 (ascii "/lib/libx.so") rfl
    exact absurd same (by decide)

end Sample

section Skipped

variable {loader next : DynLoader} {request : Request} {queue : List Request} {steps : Nat} {handle : Address}
  {sameFile : Path → Path → Prop}

/-- Neither caller of `FindLibrary` leaves the name out, and a handle for it means
that its file is among the binaries: the file at that path, if it is a path. -/
structure NotSkipped (sameFile : Path → Path → Prop) (host : Host) (loader : DynLoader) (steps : Nat)
    (request : Request) (queue : List Request) : Prop where
  queued : request.libraryName ∉ loader.loaded →
    loader.popRequest host request queue ≠ .ok (loader.insertLoaded request.libraryName, queue)
  opened : loader.sloaderDlopen host steps (some request.libraryName) ≠ .ok (0xaaaaaaaabbbbbbbb, loader)
  handle : ∀ handle next, loader.sloaderDlopen host steps (some request.libraryName) = .ok (handle, next) →
    handle ≠ 0 → ∃ binary, next.binaries[loader.binaries.length]? = some binary ∧
      findLibrary host request.libraryName none none = .ok binary.path ∧
      (slash ∈ request.libraryName → sameFile binary.path request.libraryName)

theorem DynLoader.sloaderDlopen_adds (wanted : isSkipped name = false)
    (ran : loader.sloaderDlopen host steps (some name) = .ok (handle, next)) :
    ∃ binary, next.binaries[loader.binaries.length]? = some binary ∧
      findLibrary host name none none = .ok binary.path := by
  obtain ⟨path, loaded, found, loads, relocates, _⟩ := DynLoader.sloaderDlopen_steps wanted ran
  obtain ⟨binary, more, binaries, named⟩ := (DynLoader.Visits.of_loadDependingLibs loads).root_binary
  refine ⟨binary, ?_, named ▸ found⟩
  rw [DynLoader.relocate_binaries relocates, binaries]
  simp

theorem NotSkipped.wanted (kept : NotSkipped sameFile host loader steps request queue) :
    isSkipped request.libraryName = false := by
  cases skipped : isSkipped request.libraryName with
  | false => rfl
  | true => exact absurd (by simp [DynLoader.sloaderDlopen, skipped]) kept.opened

theorem NotSkipped.designates (reflexive : ∀ path, sameFile path path)
    (kept : NotSkipped sameFile host loader steps request queue)
    (ran : loader.sloaderDlopen host steps (some request.libraryName) = .ok (handle, next))
    (isPath : slash ∈ request.libraryName) : host.Designates sameFile request.libraryName none none := by
  obtain ⟨_, _, _, _, _, same⟩ := DynLoader.sloaderDlopen_steps kept.wanted ran
  obtain ⟨binary, _, found, honoured⟩ := kept.handle handle next ran (by rw [same]; decide)
  exact (designates_iff reflexive).mpr ⟨binary.path, found, honoured isPath⟩

theorem notSkipped_of_wanted (reflexive : ∀ path, sameFile path path) (wanted : isSkipped request.libraryName = false)
    (designates : slash ∈ request.libraryName → host.Designates sameFile request.libraryName none none) :
    NotSkipped sameFile host loader steps request queue := by
  constructor
  · intro unknown popped
    rcases DynLoader.popRequest_cases popped with ⟨known, _⟩ | ⟨_, skipped, _⟩ | ⟨_, _, path, binary, _, emplaced, _⟩
    · exact unknown known
    · rw [wanted] at skipped
      contradiction
    · have binaries := DynLoader.emplace_binaries emplaced
      simp [DynLoader.insertLoaded] at binaries
  · intro ran
    obtain ⟨_, _, _, _, _, handle⟩ := DynLoader.sloaderDlopen_steps wanted ran
    exact absurd handle (by decide)
  · intro handle next ran _
    obtain ⟨binary, added, found⟩ := DynLoader.sloaderDlopen_adds wanted ran
    refine ⟨binary, added, found, fun isPath => ?_⟩
    obtain ⟨path, again, same⟩ := (designates_iff reflexive).mp (designates isPath)
    rw [found] at again
    cases again
    exact same

/-- A name of which the last component is that of the dynamic loader or of libc. -/
def isLoaderOrLibc (name : CString) : Bool :=
  (ascii "ld-linux").isPrefixOf (filename name) || (ascii "libc.so").isPrefixOf (filename name)

/-- The two words that the filters look for are nowhere in the name, and a path
stands for the file that `FindLibrary` comes to. -/
structure Kept (sameFile : Path → Path → Prop) (host : Host) (name : CString) : Prop where
  loader : contains name (ascii "ld-linux") = false
  libc : contains name (ascii "libc.so") = false
  path : slash ∈ name → host.Designates sameFile name none none

/-- The filters keep every other name that has neither word anywhere in it, and
`sloader_dlopen` opens the file that a path leads to, under a condition that is
necessary for every call that returns. -/
theorem others_notSkipped_iff (reflexive : ∀ path, sameFile path path) (host : Host) (loader : DynLoader) (steps : Nat)
    (request : Request) (queue : List Request) :
    (isLoaderOrLibc request.libraryName = true ∨ Kept sameFile host request.libraryName →
      isLoaderOrLibc request.libraryName = false → NotSkipped sameFile host loader steps request queue) ∧
    ∀ handle next, loader.sloaderDlopen host steps (some request.libraryName) = .ok (handle, next) →
      ((isLoaderOrLibc request.libraryName = false → NotSkipped sameFile host loader steps request queue) ↔
        isLoaderOrLibc request.libraryName = true ∨ Kept sameFile host request.libraryName) := by
  have enough : isLoaderOrLibc request.libraryName = true ∨ Kept sameFile host request.libraryName →
      isLoaderOrLibc request.libraryName = false → NotSkipped sameFile host loader steps request queue := by
    intro either other
    cases either with
    | inl named =>
        rw [named] at other
        contradiction
    | inr kept =>
        have wanted : isSkipped request.libraryName = false := by rw [isSkipped, kept.loader, kept.libc]; rfl
        exact notSkipped_of_wanted reflexive wanted kept.path
  refine ⟨enough, fun handle next ran => ⟨fun opens => ?_, enough⟩⟩
  cases other : isLoaderOrLibc request.libraryName with
  | true => exact .inl rfl
  | false =>
      have opened := opens other
      obtain ⟨noLoader, noLibc⟩ := Bool.or_eq_false_iff.mp opened.wanted
      exact .inr ⟨noLoader, noLibc, opened.designates reflexive ran⟩

end Skipped

namespace Sample

theorem notSkipped_lib_libx :
    NotSkipped (· = ·) (Sample.host [(ascii "libx.so", [])] fun _ => none) (.fresh ⟨fun _ => 0, []⟩) 0
      ⟨ascii "/lib/libx.so", none, none⟩ [] := by
  have enough := (@others_notSkipped_iff (· = ·) (fun _ => rfl) (Sample.host [(ascii "libx.so", [])] fun _ => none)
    (.fresh ⟨fun _ => 0, []⟩) 0 ⟨ascii "/lib/libx.so", none, none⟩ []).1
  exact enough (.inr ⟨by decide, by decide, fun _ => .inl ⟨rfl, rfl⟩⟩) (by decide)

/-- A library in a directory called after libc: the call reports success, and
nothing is loaded. -/
theorem dlopen_skips_directory :
    isLoaderOrLibc (ascii "/opt/libc.so.d/libx.so") = false ∧
      (DynLoader.fresh ⟨fun _ => 0, []⟩).sloaderDlopen (Sample.host [(ascii "libx.so", [])] fun _ => none) 0
          (some (ascii "/opt/libc.so.d/libx.so")) =
        .ok (0xaaaaaaaabbbbbbbb, DynLoader.fresh ⟨fun _ => 0, []⟩) ∧
      ¬ NotSkipped (· = ·) (Sample.host [(ascii "libx.so", [])] fun _ => none) (.fresh ⟨fun _ => 0, []⟩) 0
        ⟨ascii "/opt/libc.so.d/libx.so", none, none⟩ [] := by
  have skipped : isSkipped (ascii "/opt/libc.so.d/libx.so") = true := by decide
  refine ⟨by decide, by simp [DynLoader.sloaderDlopen, skipped], fun kept => ?_⟩
  have wanted := kept.wanted
  rw [skipped] at wanted
  contradiction

end Sample

end Sloader
