import Sloader.Data.Pieces
import Sloader.Execute
import Sloader.Library.Names

namespace Sloader

open Data

/-! `main`: the file that a command stands for, looked up in `PATH`, and the run
of it. -/

/-- The loop of `SplitWith`.  It shortens the text in every turn, unless the
delimiter is empty. -/
def splitWithFrom (delimiter : CString) : Nat → CString → Except Stop (List CString)
  | 0, _ => .error .outOfFuel
  | fuel + 1, str =>
      match find delimiter str with
      | none => .ok []
      | some pos => do
          let ret ← splitWithFrom delimiter fuel (str.drop (pos + delimiter.length))
          return str.take pos :: ret

def splitWith (str delimiter : CString) : Except Stop (List CString) :=
  splitWithFrom delimiter (str.length + 1) str

theorem splitWithFrom_cut {delimiter : CString} (nonempty : delimiter ≠ []) (fuel : Nat) (str : CString)
    (enough : str.length < fuel) :
    ∃ pieces last, splitWithFrom delimiter fuel str = .ok pieces ∧ Cut delimiter str pieces last := by
  induction fuel generalizing str with
  | zero => omega
  | succ fuel ih =>
      rw [splitWithFrom]
      cases found : find delimiter str with
      | none => exact ⟨[], str, rfl, .none (find_eq_none.mp found)⟩
      | some pos =>
          obtain ⟨piece, behind, rfl, rfl, absent⟩ := find_eq_some nonempty found
          have shorter : behind.length < fuel := by
            have positive := List.length_pos_iff.mpr nonempty
            simp only [List.length_append] at enough
            omega
          obtain ⟨pieces, last, ran, cut⟩ := ih behind shorter
          refine ⟨piece :: pieces, last, ?_, cut.cons absent⟩
          have erased : (piece ++ delimiter ++ behind).drop (piece.length + delimiter.length) = behind := by
            rw [← List.length_append, List.drop_left]
          have taken : (piece ++ delimiter ++ behind).take piece.length = piece := by
            rw [List.append_assoc, List.take_left]
          simp only [erased, taken, ran]
          rfl

/-- The loop ends, with all pieces of the text except the last. -/
theorem splitWith_cut {delimiter : CString} (nonempty : delimiter ≠ []) (str : CString) :
    ∃ pieces last, splitWith str delimiter = .ok pieces ∧ Cut delimiter str pieces last :=
  splitWithFrom_cut nonempty (str.length + 1) str (Nat.lt_succ_self _)

theorem splitWith_join_iff {delimiter : CString} (nonempty : delimiter ≠ []) (str : CString) :
    (∃ pieces, splitWith str delimiter = .ok pieces ∧ (∀ piece ∈ pieces, ¬ delimiter <:+: piece) ∧
      delimiter.intercalate pieces = str) ↔ str = [] := by
  obtain ⟨pieces, last, ran, cut⟩ := splitWith_cut nonempty str
  rw [← cut.join_pieces_iff nonempty]
  constructor
  · intro split
    obtain ⟨others, again, _, joined⟩ := split
    rw [ran] at again
    cases again
    exact joined
  · intro joined
    exact ⟨pieces, ran, cut.pieces, joined⟩

/-- What `main` asks of the system besides what the loader does. -/
structure Shell extends Host where
  isRegularFile : Path → Lookup

namespace Shell

def dot : UInt8 := 46

def isCommand (shell : Shell) (p : Path) : Except Stop Bool := do
  if ← (shell.fileExists p).ask then (shell.isRegularFile p).ask else return false

/-- The loop over the directories of `PATH`, which leaves the path empty if none has
the command. -/
def searchPath (shell : Shell) (argv0 : CString) : List CString → Except Stop Path
  | [] => .ok []
  | dir :: rest => do
      if ← shell.isCommand (appendPath dir argv0) then return appendPath dir argv0
      else shell.searchPath argv0 rest

/-- The file that the command stands for. -/
def findCommand (shell : Shell) (path argv0 : CString) : Except Stop Path :=
  if argv0.head? == some dot || contains argv0 (ascii "/") then .ok argv0
  else do
    let pathDirs ← splitWith path (ascii ":")
    shell.searchPath argv0 pathDirs

/-- `fullpath`: the file that `main` goes on with. -/
def fullpath (shell : Shell) (path argv0 : CString) : Except Stop Path := do
  let fullpath ← shell.findCommand path argv0
  let found ← (shell.fileExists fullpath).ask
  check found "std::filesystem::exists(fullpath)"
  return fullpath

def getEType (host : Host) (filepath : Path) : Except Stop FileType :=
  match host.openFile filepath with
  | none => .error (.check "fd >= 0")
  | some file => do
      check (file.length > 8 + 16) "(size) > (8UL + 16UL)"
      check (host.mapFile filepath) "p != MAP_FAILED"
      return (Elf64Ehdr.read (ELFBinary.fileBytes file) 0).eType

section Main

variable {α : Type} (shell : Shell) (call : Address → DynLoader → Traced Stop α DynLoader)
  (getauxval : Elf64Xword → Elf64Xword) (args envs : StringVector) (rsp : Address) (steps : Nat) (memory : Memory)

/-- What `main` does with the file. -/
def launch (fullpath : Path) : Traced Stop (Event α) Entry := do
  let etype ← .lift (getEType shell.toHost fullpath)
  if etype = .dyn || etype = .exec then
    (DynLoader.fresh memory).run shell.toHost call getauxval args envs rsp steps fullpath
  else .lift (.error .abort)

/-- `main`, for the value `path` of `PATH` and the command `argv0`. -/
def main (path argv0 : CString) : Traced Stop (Event α) Entry := do
  let fullpath ← .lift (shell.fullpath path argv0)
  shell.launch call getauxval args envs rsp steps memory fullpath

theorem main_runs {path argv0 : CString} {file : Path} (found : shell.fullpath path argv0 = .ok file) :
    shell.main call getauxval args envs rsp steps memory path argv0 =
      shell.launch call getauxval args envs rsp steps memory file := by
  rw [main, found, Traced.lift_bind]

end Main

variable {shell : Shell} {path argv0 : CString} {directory : Path} {before after directories : List Path}

theorem contains_slash (bare : slash ∉ argv0) : contains argv0 (ascii "/") = false := by
  rw [contains, List.any_eq_false]
  intro suffix inTails starts
  have isSuffix := (List.mem_tails suffix argv0).mp inTails
  have isPrefix : [slash] <+: suffix := List.isPrefixOf_iff_prefix.mp starts
  exact bare (isSuffix.subset (isPrefix.subset List.mem_cons_self))

/-- A command that is no path is looked for in all directories but the last. -/
theorem findCommand_eq (bare : slash ∉ argv0) (undotted : argv0.head? ≠ some dot) (path : CString) :
    ∃ directories last, path.splitOn colon = directories ++ [last] ∧
      shell.findCommand path argv0 = shell.searchPath argv0 directories := by
  obtain ⟨directories, last, ran, cut⟩ := @splitWith_cut (ascii ":") (by decide) path
  refine ⟨directories, last, Cut.splitOn cut, ?_⟩
  have named : (argv0.head? == some dot || contains argv0 (ascii "/")) = false := by
    rw [contains_slash bare, Bool.or_false]
    exact beq_false_of_ne undotted
  rw [findCommand, named, ran]
  rfl

theorem fullpath_of_found {found : Path} (searched : shell.findCommand path argv0 = .ok found)
    (looked : (shell.fileExists found).ask = .ok true) : shell.fullpath path argv0 = .ok found := by
  rw [fullpath, searched]
  simp only [bind, Except.bind, looked, check, if_true]
  rfl

theorem fullpath_of_missing {found : Path} (searched : shell.findCommand path argv0 = .ok found)
    (looked : (shell.fileExists found).ask = .ok false) :
    shell.fullpath path argv0 = .error (.check "std::filesystem::exists(fullpath)") := by
  rw [fullpath, searched]
  simp only [bind, Except.bind, looked, check, Bool.false_eq_true, if_false]

theorem fullpath_of_stopped {stop : Stop} (searched : shell.findCommand path argv0 = .error stop) :
    shell.fullpath path argv0 = .error stop := by
  rw [fullpath, searched]
  rfl

/-- There is a regular file at the path, whether or not it can be looked up. -/
def HasCommand (shell : Shell) (p : Path) : Prop :=
  (shell.fileExists p).answer = true ∧ (shell.isRegularFile p).answer = true

/-- Nothing throws when `main` asks about the path. -/
def Answers (shell : Shell) (p : Path) : Prop :=
  (shell.fileExists p).throws = false ∧
    ((shell.fileExists p).answer = true → (shell.isRegularFile p).throws = false)

theorem isCommand_eq_ok {p : Path} {found : Bool} :
    shell.isCommand p = .ok found ↔ shell.Answers p ∧ (found = true ↔ shell.HasCommand p) := by
  unfold isCommand Answers HasCommand
  rcases shell.fileExists p with ⟨answer, throws⟩
  rcases shell.isRegularFile p with ⟨regular, fails⟩
  revert answer throws regular fails found
  decide

theorem searchPath_append (answers : ∀ other ∈ before, shell.Answers (appendPath other argv0))
    (absent : ∀ other ∈ before, ¬ shell.HasCommand (appendPath other argv0)) :
    shell.searchPath argv0 (before ++ directories) = shell.searchPath argv0 directories := by
  induction before with
  | nil => rfl
  | cons head rest ih =>
      have asked : shell.isCommand (appendPath head argv0) = .ok false := by
        rw [isCommand_eq_ok]
        exact ⟨answers head List.mem_cons_self, by simpa using absent head List.mem_cons_self⟩
      rw [List.cons_append, searchPath, asked]
      exact ih (fun other member => answers other (List.mem_cons_of_mem head member))
        fun other member => absent other (List.mem_cons_of_mem head member)

theorem answers_of_searchPath {found : Path}
    (first : ∀ other ∈ before, ¬ shell.HasCommand (appendPath other argv0))
    (ran : shell.searchPath argv0 (before ++ directory :: after) = .ok found) :
    ∀ other ∈ before ++ [directory], shell.Answers (appendPath other argv0) := by
  induction before with
  | nil =>
      rw [List.nil_append, searchPath, bind_eq_ok] at ran
      obtain ⟨has, asked, _⟩ := ran
      simpa using (isCommand_eq_ok.mp asked).1
  | cons head rest ih =>
      rw [List.cons_append, searchPath, bind_eq_ok] at ran
      obtain ⟨has, asked, remaining⟩ := ran
      obtain ⟨answers, same⟩ := isCommand_eq_ok.mp asked
      have absent : has ≠ true := fun isThere => first head List.mem_cons_self (same.mp isThere)
      rw [if_neg absent] at remaining
      rw [List.cons_append, List.forall_mem_cons]
      exact ⟨answers, ih (fun other member => first other (List.mem_cons_of_mem head member)) remaining⟩

theorem searchPath_first (answers : ∀ other ∈ before ++ [directory], shell.Answers (appendPath other argv0))
    (first : ∀ other ∈ before, ¬ shell.HasCommand (appendPath other argv0))
    (has : shell.HasCommand (appendPath directory argv0)) :
    shell.searchPath argv0 (before ++ directory :: after) = .ok (appendPath directory argv0) := by
  have asked : shell.isCommand (appendPath directory argv0) = .ok true :=
    isCommand_eq_ok.mpr ⟨answers directory (by simp), by simpa using has⟩
  rw [searchPath_append (fun other member => answers other (List.mem_append_left _ member)) first, searchPath, asked]
  rfl

theorem searchPath_missing {found : Path}
    (absent : ∀ other ∈ directories, ¬ shell.HasCommand (appendPath other argv0))
    (ran : shell.searchPath argv0 directories = .ok found) : found = [] := by
  induction directories with
  | nil =>
      cases ran
      rfl
  | cons head rest ih =>
      rw [searchPath, bind_eq_ok] at ran
      obtain ⟨has, asked, remaining⟩ := ran
      have missing : has ≠ true :=
        fun isThere => absent head List.mem_cons_self ((isCommand_eq_ok.mp asked).2.mp isThere)
      rw [if_neg missing] at remaining
      exact ih (fun other member => absent other (List.mem_cons_of_mem head member)) remaining

theorem found_iff (missing : shell.fileExists [] = { answer := false }) (bare : slash ∉ argv0)
    (undotted : argv0.head? ≠ some dot) (split : path.splitOn colon = before ++ directory :: after)
    (first : ∀ other ∈ before, ¬ shell.HasCommand (appendPath other argv0))
    (has : shell.HasCommand (appendPath directory argv0)) :
    shell.fullpath path argv0 = .ok (appendPath directory argv0) ↔
      after ≠ [] ∧ ∀ other ∈ before ++ [directory], shell.Answers (appendPath other argv0) := by
  obtain ⟨directories, last, same, searched⟩ := @findCommand_eq shell argv0 bare undotted path
  rw [same] at split
  rcases List.eq_nil_or_concat after with rfl | ⟨between, final, rfl⟩
  · obtain ⟨rfl, _⟩ := List.append_inj' split rfl
    refine iff_of_false ?_ (by simp)
    cases ran : shell.searchPath argv0 directories with
    | error stop => simp [fullpath_of_stopped (searched.trans ran)]
    | ok found =>
        cases searchPath_missing first ran
        simp [fullpath_of_missing (searched.trans ran) (by rw [missing]; rfl)]
  · rw [List.concat_eq_append, ← List.cons_append, ← List.append_assoc] at split
    obtain ⟨rfl, _⟩ := List.append_inj' split rfl
    constructor
    · intro found
      cases ran : shell.searchPath argv0 (before ++ directory :: between) with
      | error stop =>
          rw [fullpath_of_stopped (searched.trans ran)] at found
          contradiction
      | ok file => exact ⟨by simp, answers_of_searchPath first ran⟩
    · intro condition
      have looked : (shell.fileExists (appendPath directory argv0)).ask = .ok true :=
        Lookup.ask_eq_ok.mpr ⟨(condition.2 directory (by simp)).1, has.1⟩
      exact fullpath_of_found (searched.trans (searchPath_first condition.2 first has)) looked

/-- The pieces that `SplitWith` returns make up the text only if it is empty, and
`main` finds a command exactly if the first directory that has it is not the last
of `PATH` and no question that is asked until then throws. -/
theorem fullpath_first_iff {α : Type} {delimiter : CString} (nonempty : delimiter ≠ []) (str : CString)
    (missing : shell.fileExists [] = { answer := false }) (bare : slash ∉ argv0) (undotted : argv0.head? ≠ some dot)
    (split : path.splitOn colon = before ++ directory :: after)
    (first : ∀ other ∈ before, ¬ shell.HasCommand (appendPath other argv0))
    (has : shell.HasCommand (appendPath directory argv0)) :
    ((∃ pieces, splitWith str delimiter = .ok pieces ∧ (∀ piece ∈ pieces, ¬ delimiter <:+: piece) ∧
        delimiter.intercalate pieces = str) ↔ str = []) ∧
    (shell.fullpath path argv0 = .ok (appendPath directory argv0) ↔
      after ≠ [] ∧ ∀ other ∈ before ++ [directory], shell.Answers (appendPath other argv0)) ∧
    (after ≠ [] → (∀ other ∈ before ++ [directory], shell.Answers (appendPath other argv0)) →
      ∀ (call : Address → DynLoader → Traced Stop α DynLoader) getauxval args envs rsp steps memory,
        shell.main call getauxval args envs rsp steps memory path argv0 =
          shell.launch call getauxval args envs rsp steps memory (appendPath directory argv0)) := by
  have found := found_iff missing bare undotted split first has
  refine ⟨splitWith_join_iff nonempty str, found, ?_⟩
  intro notLast answers call getauxval args envs rsp steps memory
  exact main_runs shell call getauxval args envs rsp steps memory (found.mpr ⟨notLast, answers⟩)

/-- A system with one program, in a directory of its own. -/
def oneProgram (program : Path) : Shell :=
  ⟨Sample.host [(filename program, [])] fun _ => none, fun p => { answer := p = program }⟩

theorem fullpath_first :
    (∃ pieces, splitWith [] (ascii "::") = .ok pieces ∧ (∀ piece ∈ pieces, ¬ ascii "::" <:+: piece) ∧
      (ascii "::").intercalate pieces = []) ∧
    (oneProgram (ascii "/bin/ls")).fullpath (ascii "/bin:/usr/bin") (ascii "ls") = .ok (ascii "/bin/ls") := by
  have searched := @fullpath_first_iff (oneProgram (ascii "/bin/ls")) (ascii "/bin:/usr/bin") (ascii "ls") (ascii "/bin")
    [] [ascii "/usr/bin"] Unit (ascii "::") (by decide) [] rfl (by decide) (by decide) (by decide) (by simp)
    ⟨rfl, rfl⟩
  have answers : ∀ other ∈ [] ++ [ascii "/bin"], (oneProgram (ascii "/bin/ls")).Answers (appendPath other (ascii "ls")) :=
    fun _ _ => ⟨rfl, fun _ => rfl⟩
  exact ⟨searched.1.mpr rfl, searched.2.1.mpr ⟨by simp, answers⟩⟩

/-- A program in the last directory of `PATH` is not found; the last piece is lost. -/
theorem fullpath_misses_last :
    splitWith (ascii "/bin:/usr/bin") (ascii ":") = .ok [ascii "/bin"] ∧
      (ascii ":").intercalate [ascii "/bin"] ≠ ascii "/bin:/usr/bin" ∧
      (ascii "/bin:/usr/bin").splitOn colon = [ascii "/bin", ascii "/usr/bin"] ∧
      (oneProgram (ascii "/usr/bin/ls")).isCommand (appendPath (ascii "/bin") (ascii "ls")) = .ok false ∧
      (oneProgram (ascii "/usr/bin/ls")).isCommand (appendPath (ascii "/usr/bin") (ascii "ls")) = .ok true ∧
      (oneProgram (ascii "/usr/bin/ls")).fullpath (ascii "/bin:/usr/bin") (ascii "ls") =
        .error (.check "std::filesystem::exists(fullpath)") := by
  decide +kernel

end Shell

end Sloader
