import Sloader.Run

namespace Sloader

open Data

/-! `FindLibrary`: which file a name stands for.  Every directory of the search
order is read entry by entry, in the order of the file system, and the first
entry that starts with the wanted name is taken. -/

variable {host other : Host} {name base entry : CString} {directory path : Path} {directories before after : List Path}
  {runpath rpath : Option Path}

theorem filename_append {parent : Path} (closed : parent = [] ∨ parent.getLast? = some slash) (bare : slash ∉ name) :
    filename (parent ++ name) = name := by
  have passes : ∀ byte ∈ name.reverse, (byte != slash) = true := by
    intro byte member
    have other : byte ≠ slash := fun same => bare (same ▸ List.mem_reverse.mp member)
    simpa using other
  have stops : parent.reverse.takeWhile (· != slash) = [] := by
    cases closed with
    | inl empty => rw [empty]; rfl
    | inr last =>
        rw [← List.head?_reverse] at last
        cases reversed : parent.reverse with
        | nil => rfl
        | cons byte rest =>
            rw [reversed] at last
            cases last
            rfl
  rw [filename, List.reverse_append, List.takeWhile_append_of_pos passes, stops, List.append_nil, List.reverse_reverse]

theorem filename_of_bare (bare : slash ∉ name) : filename name = name :=
  filename_append (.inl rfl) bare

theorem isAbsolute_of_bare (bare : slash ∉ name) : isAbsolute name = false := by
  cases name with
  | nil => rfl
  | cons byte rest =>
      have other : byte ≠ slash := fun same => bare (same ▸ List.mem_cons_self)
      simpa [isAbsolute] using other

theorem filename_appendPath (bare : slash ∉ name) (directory : Path) :
    filename (appendPath directory name) = name := by
  unfold appendPath
  split
  · rename_i closed
    simp only [Bool.or_eq_true, decide_eq_true_eq, beq_iff_eq] at closed
    exact filename_append closed bare
  · have whole : directory ++ slash :: name = (directory ++ [slash]) ++ name := by simp
    rw [whole]
    exact filename_append (.inr (by simp)) bare

/-- The directory has a file of exactly that name. -/
def Host.Offers (host : Host) (name : CString) (directory : Path) : Prop :=
  (host.isDirectory directory).answer = true ∧ name ∈ (host.directoryIterator directory).all

/-- `FindLibrary` comes to the entry, and to none before it that starts with the
wanted name. -/
structure Host.Takes (host : Host) (base : CString) (directory : Path) (entry : CString) : Prop where
  isDirectory : host.isDirectory directory = { answer := true }
  starts : base <+: entry
  listed : ∃ earlier later, (host.directoryIterator directory).entries = earlier ++ entry :: later ∧
    ∀ other ∈ earlier, ¬ base <+: other

/-- `FindLibrary` goes through the whole directory, if it is one, and takes nothing. -/
structure Host.Passes (host : Host) (base : CString) (directory : Path) : Prop where
  answers : (host.isDirectory directory).throws = false
  unread : (host.isDirectory directory).answer = true → (host.directoryIterator directory).unread = none
  missing : (host.isDirectory directory).answer = true →
    ∀ entry ∈ (host.directoryIterator directory).entries, ¬ base <+: entry

/-- An exception ends the search in the directory. -/
def Host.Fails (host : Host) (base : CString) (directory : Path) : Prop :=
  (host.isDirectory directory).throws = true ∨
  ((host.isDirectory directory).answer = true ∧ (host.directoryIterator directory).unread ≠ none ∧
    ∀ entry ∈ (host.directoryIterator directory).entries, ¬ base <+: entry)

/-- The first match, in the order of the directories and of their entries. -/
def Host.FirstMatch (host : Host) (base : CString) (directories : List Path) (path : Path) : Prop :=
  ∃ before directory after entry, directories = before ++ directory :: after ∧
    (∀ other ∈ before, host.Passes base other) ∧ host.Takes base directory entry ∧ path = appendPath directory entry

theorem find_starting_eq_none {entries : List CString} :
    entries.find? base.isPrefixOf = none ↔ ∀ entry ∈ entries, ¬ base <+: entry := by
  simp only [List.find?_eq_none, List.isPrefixOf_iff_prefix]

theorem find_starting_eq_some {entries : List CString} :
    entries.find? base.isPrefixOf = some entry ↔
      base <+: entry ∧ ∃ earlier later, entries = earlier ++ entry :: later ∧ ∀ other ∈ earlier, ¬ base <+: other := by
  simp only [List.find?_eq_some_iff_append, Bool.not_eq_eq_eq_not, Bool.not_true, ← Bool.not_eq_true,
    List.isPrefixOf_iff_prefix]

theorem searchDirectory_passes (passes : host.Passes base directory) :
    searchDirectory host base directory = .ok none := by
  unfold searchDirectory
  rw [Lookup.ask, passes.answers]
  cases isDirectory : (host.isDirectory directory).answer with
  | false => rfl
  | true =>
      have absent := find_starting_eq_none.mpr (passes.missing isDirectory)
      simp [absent, passes.unread isDirectory, bind, Except.bind, pure, Except.pure]

theorem searchDirectory_takes (takes : host.Takes base directory entry) :
    searchDirectory host base directory = .ok (some (appendPath directory entry)) := by
  have found := find_starting_eq_some.mpr ⟨takes.starts, takes.listed⟩
  simp [searchDirectory, takes.isDirectory, Lookup.ask, found, bind, Except.bind, pure, Except.pure]

theorem searchDirectory_fails (fails : host.Fails base directory) :
    searchDirectory host base directory = .error .filesystemError := by
  unfold searchDirectory
  rw [Lookup.ask]
  cases fails with
  | inl throws => rw [throws]; rfl
  | inr reading =>
      obtain ⟨isDirectory, unread, missing⟩ := reading
      have absent := find_starting_eq_none.mpr missing
      cases (host.isDirectory directory).throws with
      | true => rfl
      | false => simp [isDirectory, absent, Option.isSome_iff_ne_none.mpr unread, bind, Except.bind]

/-- A turn of the loop takes an entry, passes over the directory, or fails. -/
theorem Host.turns (host : Host) (base : CString) (directory : Path) :
    (∃ entry, host.Takes base directory entry) ∨ host.Passes base directory ∨ host.Fails base directory := by
  cases throws : (host.isDirectory directory).throws with
  | true => exact .inr (.inr (.inl throws))
  | false =>
      cases isDirectory : (host.isDirectory directory).answer with
      | false => exact .inr (.inl ⟨throws, by simp [isDirectory], by simp [isDirectory]⟩)
      | true =>
          have same : host.isDirectory directory = { answer := true } := by
            rw [← isDirectory, ← throws]
          cases found : (host.directoryIterator directory).entries.find? base.isPrefixOf with
          | some entry =>
              obtain ⟨starts, listed⟩ := find_starting_eq_some.mp found
              exact .inl ⟨entry, same, starts, listed⟩
          | none =>
              have missing := find_starting_eq_none.mp found
              by_cases unread : (host.directoryIterator directory).unread = none
              · exact .inr (.inl ⟨throws, fun _ => unread, fun _ => missing⟩)
              · exact .inr (.inr (.inr ⟨isDirectory, unread, missing⟩))

theorem searchDirectories_append (passes : ∀ other ∈ before, host.Passes base other) :
    searchDirectories host base (before ++ directories) = searchDirectories host base directories := by
  induction before with
  | nil => rfl
  | cons head rest ih =>
      rw [List.cons_append, searchDirectories, searchDirectory_passes (passes head List.mem_cons_self)]
      exact ih fun other member => passes other (List.mem_cons_of_mem head member)

/-- The loop passes over every directory, or over those before one at which it ends. -/
theorem Host.searches (host : Host) (base : CString) (directories : List Path) :
    (∀ other ∈ directories, host.Passes base other) ∨
    ∃ before directory after, directories = before ++ directory :: after ∧
      (∀ other ∈ before, host.Passes base other) ∧ ¬ host.Passes base directory := by
  induction directories with
  | nil => exact .inl (by simp)
  | cons head rest ih =>
      by_cases passes : host.Passes base head
      · rcases ih with every | ⟨before, directory, after, rfl, earlier, ends⟩
        · exact .inl (List.forall_mem_cons.mpr ⟨passes, every⟩)
        · exact .inr ⟨head :: before, directory, after, rfl, List.forall_mem_cons.mpr ⟨passes, earlier⟩, ends⟩
      · exact .inr ⟨[], head, rest, rfl, by simp, passes⟩

theorem searchDirectories_takes (passes : ∀ other ∈ before, host.Passes base other)
    (takes : host.Takes base directory entry) :
    searchDirectories host base (before ++ directory :: after) = .ok (appendPath directory entry) := by
  rw [searchDirectories_append passes, searchDirectories, searchDirectory_takes takes]
  rfl

theorem searchDirectories_fails (passes : ∀ other ∈ before, host.Passes base other)
    (fails : host.Fails base directory) :
    searchDirectories host base (before ++ directory :: after) = .error .filesystemError := by
  rw [searchDirectories_append passes, searchDirectories, searchDirectory_fails fails]
  rfl

theorem searchDirectories_passes (passes : ∀ other ∈ directories, host.Passes base other) :
    searchDirectories host base directories = .error .abort := by
  rw [← List.append_nil directories, searchDirectories_append passes]
  rfl

theorem searchDirectories_eq_ok :
    searchDirectories host base directories = .ok path ↔ host.FirstMatch base directories path := by
  constructor
  · intro found
    rcases host.searches base directories with every | ⟨before, directory, after, rfl, earlier, ends⟩
    · rw [searchDirectories_passes every] at found
      contradiction
    · rcases host.turns base directory with ⟨entry, takes⟩ | passes | fails
      · rw [searchDirectories_takes earlier takes] at found
        cases found
        exact ⟨before, directory, after, entry, rfl, earlier, takes, rfl⟩
      · contradiction
      · rw [searchDirectories_fails earlier fails] at found
        contradiction
  · intro first
    obtain ⟨before, directory, after, entry, rfl, earlier, takes, rfl⟩ := first
    exact searchDirectories_takes earlier takes

theorem isLibraryPath_of_bare (bare : slash ∉ name) : isLibraryPath host name = .ok false := by
  rw [isLibraryPath, isAbsolute_of_bare bare]
  rfl

theorem findLibrary_eq_ok (sought : isLibraryPath host name = .ok false) :
    findLibrary host name runpath rpath = .ok path ↔
      ∃ directories, libraryDirectory host runpath rpath = .ok directories ∧
        host.FirstMatch (filename name) directories path := by
  have searched : findLibrary host name runpath rpath =
      (libraryDirectory host runpath rpath >>= searchDirectories host (filename name)) := by
    rw [findLibrary, sought]
    rfl
  simp only [searched, ← searchDirectories_eq_ok, bind_eq_ok]

/-- Entries of a directory are names of files, without the path to them. -/
def Host.PlainEntries (host : Host) : Prop :=
  ∀ directory, ∀ entry ∈ (host.directoryIterator directory).entries, slash ∉ entry

theorem Host.Takes.mem (takes : host.Takes base directory entry) :
    entry ∈ (host.directoryIterator directory).entries := by
  obtain ⟨earlier, later, entries, _⟩ := takes.listed
  simp [entries]

theorem Host.Takes.offers (takes : host.Takes base directory name) : host.Offers name directory :=
  ⟨by rw [takes.isDirectory], List.mem_append_left _ takes.mem⟩

theorem Host.Offers.not_passes (offers : host.Offers name directory) : ¬ host.Passes name directory := by
  intro passes
  have member := offers.2
  rw [Enumeration.all, passes.unread offers.1, Option.getD_none, List.append_nil] at member
  exact passes.missing offers.1 name member List.prefix_rfl

theorem Host.FirstMatch.takes (bare : slash ∉ name) (plain : host.PlainEntries)
    (first : ∀ other ∈ before, ¬ host.Offers name other) (offers : host.Offers name directory)
    (found : host.FirstMatch name (before ++ directory :: after) (appendPath directory name)) :
    (∀ other ∈ before, host.Passes name other) ∧ host.Takes name directory name := by
  obtain ⟨skipped, taken, rest, entry, split, passes, takes, same⟩ := found
  have exactly : entry = name := by
    rw [← filename_appendPath bare directory, same, filename_appendPath (plain taken entry takes.mem)]
  subst exactly
  -- `taken` cannot stand before `directory`, nor `directory` before `taken`
  rcases List.append_eq_append_iff.mp split with ⟨between, rfl, tail⟩ | ⟨between, rfl, tail⟩
  · cases between with
    | nil =>
        cases tail
        exact ⟨by simpa using passes, takes⟩
    | cons other between =>
        cases tail
        exact absurd (passes directory (by simp)) offers.not_passes
  · cases between with
    | nil =>
        cases tail
        exact ⟨by simpa using passes, takes⟩
    | cons other between =>
        cases tail
        exact absurd takes.offers (first taken (by simp))

theorem firstMatch_exact_iff (bare : slash ∉ name) (plain : host.PlainEntries)
    (first : ∀ other ∈ before, ¬ host.Offers name other) (offers : host.Offers name directory) :
    host.FirstMatch name (before ++ directory :: after) (appendPath directory name) ↔
      (∀ other ∈ before, host.Passes name other) ∧ host.Takes name directory name := by
  constructor
  · exact Host.FirstMatch.takes bare plain first offers
  · intro exactly
    exact ⟨before, directory, after, name, rfl, exactly.1, exactly.2, rfl⟩

/-- The same file system, whose directories list their entries in another order. -/
structure Host.Reordered (host other : Host) : Prop where
  rest : other = { host with directoryIterator := other.directoryIterator }
  entries : ∀ directory,
    (other.directoryIterator directory).entries.Perm (host.directoryIterator directory).entries
  unread : ∀ directory, (other.directoryIterator directory).unread = (host.directoryIterator directory).unread

theorem Host.Reordered.isDirectory (reordered : host.Reordered other) : other.isDirectory = host.isDirectory := by
  rw [reordered.rest]

theorem Host.Reordered.passes (reordered : host.Reordered other) :
    other.Passes name directory ↔ host.Passes name directory := by
  have entries (entry : CString) : entry ∈ (other.directoryIterator directory).entries ↔
      entry ∈ (host.directoryIterator directory).entries := (reordered.entries directory).mem_iff
  constructor
  · intro passes
    obtain ⟨answers, unread, missing⟩ := passes
    simp only [reordered.isDirectory, reordered.unread, entries] at answers unread missing
    exact ⟨answers, unread, missing⟩
  · intro passes
    obtain ⟨answers, unread, missing⟩ := passes
    simp only [← reordered.isDirectory, ← reordered.unread, ← entries] at answers unread missing
    exact ⟨answers, unread, missing⟩

theorem Host.Reordered.offers (reordered : host.Reordered other) :
    other.Offers name directory ↔ host.Offers name directory := by
  unfold Host.Offers Enumeration.all
  rw [reordered.isDirectory, reordered.unread, List.mem_append, List.mem_append,
    (reordered.entries directory).mem_iff]

theorem Host.Reordered.plain (reordered : host.Reordered other) (plain : host.PlainEntries) : other.PlainEntries := by
  intro directory entry member
  exact plain directory entry ((reordered.entries directory).mem_iff.mp member)

theorem readLdsoconfDfs_congr (readFiles : other.readFile = host.readFile) (globs : other.glob = host.glob)
    (depth files : Nat) : readLdsoconfDfs other depth files = readLdsoconfDfs host depth files := by
  induction depth generalizing files with
  | zero => rfl
  | succ depth ih =>
      cases files with
      | zero => rfl
      | succ files =>
          funext res path
          simp only [readLdsoconfDfs, readFiles, globs, ih]

theorem Host.Reordered.libraryDirectory (reordered : host.Reordered other) :
    libraryDirectory other runpath rpath = libraryDirectory host runpath rpath := by
  have readFiles : other.readFile = host.readFile := by rw [reordered.rest]
  have globs : other.glob = host.glob := by rw [reordered.rest]
  have depth : other.stackDepth = host.stackDepth := by rw [reordered.rest]
  have files : other.freeDescriptors = host.freeDescriptors := by rw [reordered.rest]
  have first : other.sloaderLibraryPath = host.sloaderLibraryPath := by rw [reordered.rest]
  simp only [Sloader.libraryDirectory, readLdsoconf, first, depth, files, readLdsoconfDfs_congr readFiles globs]

/-- The entry of a directory that is listed first. -/
def Host.listFirst (host : Host) (directory : Path) (entry : CString) : Host :=
  { host with
    directoryIterator := fun other =>
      if other = directory then
        { host.directoryIterator directory with
          entries := entry :: (host.directoryIterator directory).entries.erase entry }
      else host.directoryIterator other }

theorem Host.listFirst_reordered (member : entry ∈ (host.directoryIterator directory).entries) :
    host.Reordered (host.listFirst directory entry) where
  rest := rfl
  entries other := by
    by_cases same : other = directory
    · simp only [Host.listFirst, same, if_true]
      exact (List.perm_cons_erase member).symm
    · simp only [Host.listFirst, same, if_false]
      exact List.Perm.refl _
  unread other := by
    by_cases same : other = directory
    · simp only [Host.listFirst, same, if_true]
    · simp only [Host.listFirst, same, if_false]

theorem Host.Reordered.firstMatch_iff (reordered : host.Reordered other) (bare : slash ∉ name)
    (plain : host.PlainEntries) (first : ∀ earlier ∈ before, ¬ host.Offers name earlier)
    (offers : host.Offers name directory) :
    other.FirstMatch name (before ++ directory :: after) (appendPath directory name) ↔
      (∀ earlier ∈ before, host.Passes name earlier) ∧ other.Takes name directory name := by
  have firstThere : ∀ earlier ∈ before, ¬ other.Offers name earlier := by
    intro earlier member offered
    exact first earlier member (reordered.offers.mp offered)
  rw [firstMatch_exact_iff bare (reordered.plain plain) firstThere (reordered.offers.mpr offers)]
  simp only [reordered.passes]

/-- The directory can be looked at, and no longer name can be taken for this one,
whichever comes first. -/
structure Host.Singles (host : Host) (name : CString) (directory : Path) : Prop where
  isDirectory : host.isDirectory directory = { answer := true }
  listed : name ∈ (host.directoryIterator directory).entries
  only : ∀ entry ∈ (host.directoryIterator directory).entries, name <+: entry → entry = name

theorem Host.Reordered.takes (reordered : host.Reordered other) (singles : host.Singles name directory) :
    other.Takes name directory name := by
  have listed := (reordered.entries directory).mem_iff.mpr singles.listed
  obtain ⟨earlier, later, entries, absent⟩ := List.eq_append_cons_of_mem listed
  refine ⟨reordered.isDirectory ▸ singles.isDirectory, List.prefix_rfl, earlier, later, entries, ?_⟩
  intro entry member starts
  have inOther : entry ∈ (other.directoryIterator directory).entries := by simp [entries, member]
  have same := singles.only entry ((reordered.entries directory).mem_iff.mp inOther) starts
  exact absent (same ▸ member)

theorem singles_of_takes (takes : ∀ other, host.Reordered other → other.Takes name directory name) :
    host.Singles name directory := by
  have here := takes host ⟨rfl, fun _ => .refl _, fun _ => rfl⟩
  refine ⟨here.isDirectory, here.mem, fun entry member starts => ?_⟩
  obtain ⟨earlier, later, entries, others⟩ := (takes _ (Host.listFirst_reordered member)).listed
  simp only [Host.listFirst, if_true] at entries
  cases earlier with
  | nil => exact (List.cons.inj entries).1
  | cons head tail =>
      rw [(List.cons.inj entries).1] at starts
      exact absurd starts (others head List.mem_cons_self)

theorem firstMatch_orders_iff (bare : slash ∉ name) (plain : host.PlainEntries)
    (first : ∀ other ∈ before, ¬ host.Offers name other) (offers : host.Offers name directory) :
    (∀ other, host.Reordered other →
        other.FirstMatch name (before ++ directory :: after) (appendPath directory name)) ↔
      (∀ other ∈ before, host.Passes name other) ∧ host.Singles name directory := by
  constructor
  · intro found
    have exactly (other : Host) (reordered : host.Reordered other) :=
      (reordered.firstMatch_iff bare plain first offers).mp (found other reordered)
    exact ⟨(exactly host ⟨rfl, fun _ => .refl _, fun _ => rfl⟩).1,
      singles_of_takes fun other reordered => (exactly other reordered).2⟩
  · intro unique other reordered
    rw [reordered.firstMatch_iff bare plain first offers]
    exact ⟨unique.1, reordered.takes unique.2⟩

/-- `FindLibrary` finds the file of that name in the first directory that has one,
if it passes over those before and comes to the name before a longer one that
starts with it; and for every order of the entries, if there is no longer name. -/
theorem findLibrary_exact_iff (bare : slash ∉ name) (plain : host.PlainEntries)
    (order : libraryDirectory host runpath rpath = .ok (before ++ directory :: after))
    (first : ∀ other ∈ before, ¬ host.Offers name other) (offers : host.Offers name directory) :
    (findLibrary host name runpath rpath = .ok (appendPath directory name) ↔
      (∀ other ∈ before, host.Passes name other) ∧ host.Takes name directory name) ∧
    ((∀ other, host.Reordered other → findLibrary other name runpath rpath = .ok (appendPath directory name)) ↔
      (∀ other ∈ before, host.Passes name other) ∧ host.Singles name directory) := by
  have searched (other : Host) (same : libraryDirectory other runpath rpath = .ok (before ++ directory :: after)) :
      findLibrary other name runpath rpath = .ok (appendPath directory name) ↔
        other.FirstMatch name (before ++ directory :: after) (appendPath directory name) := by
    rw [findLibrary_eq_ok (isLibraryPath_of_bare bare), filename_of_bare bare]
    simp [same]
  constructor
  · rw [searched host order]
    exact firstMatch_exact_iff bare plain first offers
  · rw [← @firstMatch_orders_iff host name directory before after bare plain first offers]
    apply forall_congr'
    intro other
    apply imp_congr_right
    intro reordered
    exact searched other (reordered.libraryDirectory.trans order)

namespace Sample

/-- A directory with two versions of a library. -/
def versions (entries : List CString) : Host :=
  { Sample.host [] (fun _ => none) with directoryIterator := fun _ => { entries } }

theorem versions_order (entries : List CString) :
    libraryDirectory (versions entries) none none =
      .ok ([] ++ ascii "/lib" :: [ascii "/usr/lib", ascii "/usr/lib64", ascii "/usr/lib/x86_64-linux-gnu", ascii "."]) :=
  rfl

theorem findLibrary_libx_exact :
    findLibrary (versions [ascii "libx.so.1", ascii "liby.so"]) (ascii "libx.so.1") none none =
      .ok (ascii "/lib/libx.so.1") := by
  have plain : (versions [ascii "libx.so.1", ascii "liby.so"]).PlainEntries := by
    intro directory entry member
    simp only [versions, List.mem_cons, List.not_mem_nil, or_false] at member
    rcases member with rfl | rfl <;> decide
  have offers : (versions [ascii "libx.so.1", ascii "liby.so"]).Offers (ascii "libx.so.1") (ascii "/lib") :=
    ⟨rfl, List.mem_cons_self⟩
  have found := (findLibrary_exact_iff (by decide) plain (versions_order _) (by simp) offers).1
  exact found.mpr ⟨by simp, rfl, List.prefix_rfl, [], [ascii "liby.so"], rfl, by simp⟩

/-- The longer name comes first, and is taken. -/
theorem findLibrary_libx_longer :
    (versions [ascii "libx.so.10", ascii "libx.so.1"]).Offers (ascii "libx.so.1") (ascii "/lib") ∧
      findLibrary (versions [ascii "libx.so.10", ascii "libx.so.1"]) (ascii "libx.so.1") none none =
        .ok (ascii "/lib/libx.so.10") ∧
      findLibrary (versions [ascii "libx.so.10", ascii "libx.so.1"]) (ascii "libx.so.1") none none ≠
        .ok (appendPath (ascii "/lib") (ascii "libx.so.1")) ∧
      findLibrary (versions [ascii "libx.so.1", ascii "libx.so.10"]) (ascii "libx.so.1") none none =
        .ok (ascii "/lib/libx.so.1") := by
  have longer : findLibrary (versions [ascii "libx.so.10", ascii "libx.so.1"]) (ascii "libx.so.1") none none =
      .ok (ascii "/lib/libx.so.10") := by
    rfl
  refine ⟨⟨rfl, by simp [versions, Enumeration.all]⟩, longer, ?_, rfl⟩
  rw [longer]
  intro same
  exact absurd (Except.ok.inj same) (by decide)

end Sample

end Sloader
