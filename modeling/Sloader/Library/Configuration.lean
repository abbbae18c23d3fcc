import Sloader.Data.Descent
import Sloader.Library.Names

namespace Sloader

open Data

/-! The files that `/etc/ld.so.conf` includes.

`read_ldsoconf_dfs` calls itself for every path that an `include` expands to and
keeps no account of the files it has read.  Unlike the queue of libraries, which
`loaded_` keeps from taking in a name twice, nothing stops it at a file that it is
already in the middle of, until it runs out of stack or of descriptors. -/

variable {host : Host} {file other : Path} {directory : Path}

/-- The file has this text and is not passed over for its name. -/
def Host.Reads (host : Host) (file : Path) (text : CString) : Prop :=
  host.readFile file = some text ∧ contains file (ascii "i386") = false ∧ contains file (ascii "lib32") = false

def Host.Includes (host : Host) (file other : Path) : Prop :=
  ∃ text pattern, host.Reads file text ∧ .include pattern ∈ directives text ∧ other ∈ host.glob pattern

def Host.Configures (host : Host) : Path → Prop :=
  Relation.ReflTransGen host.Includes (ascii "/etc/ld.so.conf")

/-- A directory that one of the configuration files lists. -/
def Host.Lists (host : Host) (directory : Path) : Prop :=
  ∃ file text, host.Configures file ∧ host.Reads file text ∧ .directory directory ∈ directives text

/-- A directory listed in a file to which fewer includes lead. -/
def Host.ListsWithin (host : Host) (includes : Nat) (directory : Path) : Prop :=
  ∃ length < includes, ∃ file text, StepsTo host.Includes length (ascii "/etc/ld.so.conf") file ∧
    host.Reads file text ∧ .directory directory ∈ directives text

def Directive.visits (host : Host) : Directive → List (Path ⊕ Path)
  | .directory path => [.inl path]
  | .include pattern => (host.glob pattern).map .inr

def visits (host : Host) (file : Path) : List (Path ⊕ Path) :=
  match host.readFile file with
  | none => []
  | some text =>
      if contains file (ascii "i386") || contains file (ascii "lib32") then []
      else (directives text).flatMap (Directive.visits host)

theorem readLdsoconfDfs_eq (host : Host) (depth files : Nat) :
    readLdsoconfDfs host depth files = descend (visits host) .stackOverflow depth files := by
  induction depth generalizing files with
  | zero => rfl
  | succ depth ih =>
      funext res file
      cases files with
      | zero => rfl
      | succ files =>
          rw [readLdsoconfDfs, descend, visits]
          cases host.readFile file with
          | none => rfl
          | some text =>
              dsimp only
              split
              · rfl
              · rw [foldlM_flatMap]
                congr 1
                funext res directive
                cases directive with
                | directory path => rfl
                | «include» pattern => rw [ih, Directive.visits, List.foldlM_map]

theorem mem_visits {item : Path ⊕ Path} :
    item ∈ visits host file ↔
      ∃ text directive, host.Reads file text ∧ directive ∈ directives text ∧ item ∈ directive.visits host := by
  unfold visits Host.Reads
  cases host.readFile file with
  | none => simp
  | some text =>
      by_cases passed : (contains file (ascii "i386") || contains file (ascii "lib32")) = true
      · have named : ¬ (contains file (ascii "i386") = false ∧ contains file (ascii "lib32") = false) := by
          intro plain
          rw [plain.1, plain.2] at passed
          contradiction
        simp [passed, named]
      · have plain : contains file (ascii "i386") = false ∧ contains file (ascii "lib32") = false := by
          simpa using passed
        simp [plain]

theorem inl_mem_visits :
    .inl directory ∈ visits host file ↔ ∃ text, host.Reads file text ∧ .directory directory ∈ directives text := by
  rw [mem_visits]
  constructor
  · intro visited
    obtain ⟨text, directive, reads, member, item⟩ := visited
    cases directive with
    | directory path =>
        cases List.mem_singleton.mp item
        exact ⟨text, reads, member⟩
    | «include» pattern => simp [Directive.visits] at item
  · intro listed
    obtain ⟨text, reads, member⟩ := listed
    exact ⟨text, .directory directory, reads, member, List.mem_singleton.mpr rfl⟩

theorem leads_visits : Leads (visits host) = host.Includes := by
  funext file other
  rw [Leads, mem_visits, Host.Includes, eq_iff_iff]
  constructor
  · intro visited
    obtain ⟨text, directive, reads, member, item⟩ := visited
    cases directive with
    | directory path => simp [Directive.visits] at item
    | «include» pattern => exact ⟨text, pattern, reads, member, by simpa [Directive.visits] using item⟩
  · intro included
    obtain ⟨text, pattern, reads, member, expanded⟩ := included
    exact ⟨text, .include pattern, reads, member, List.mem_map_of_mem expanded⟩

theorem yields_visits :
    Yields (visits host) (ascii "/etc/ld.so.conf") directory ↔ host.Lists directory := by
  unfold Yields Host.Lists Host.Configures Reaches
  simp only [leads_visits, inl_mem_visits]
  constructor
  · intro yields
    obtain ⟨file, reaches, text, reads, member⟩ := yields
    exact ⟨file, text, reaches, reads, member⟩
  · intro lists
    obtain ⟨file, text, reaches, reads, member⟩ := lists
    exact ⟨file, reaches, text, reads, member⟩

theorem yieldsWithin_visits {includes : Nat} :
    YieldsWithin (visits host) includes (ascii "/etc/ld.so.conf") directory ↔ host.ListsWithin includes directory := by
  unfold YieldsWithin Host.ListsWithin
  simp only [leads_visits, inl_mem_visits]
  constructor
  · intro yields
    obtain ⟨length, short, file, walk, text, reads, member⟩ := yields
    exact ⟨length, short, file, text, walk, reads, member⟩
  · intro lists
    obtain ⟨length, short, file, text, walk, reads, member⟩ := lists
    exact ⟨length, short, file, walk, text, reads, member⟩

/-- The paths that the directives of a text expand to. -/
def expandedPaths (host : Host) (text : CString) : List Path :=
  (directives text).flatMap fun directive =>
    match directive with
    | .directory _ => []
    | .include pattern => host.glob pattern

theorem Host.Includes.mem_expandedPaths (included : host.Includes file other) :
    ∃ text, host.readFile file = some text ∧ other ∈ expandedPaths host text := by
  obtain ⟨text, pattern, reads, member, expanded⟩ := included
  exact ⟨text, reads.1, List.mem_flatMap.mpr ⟨.include pattern, member, expanded⟩⟩

/-- However many names the files have, finitely many of them are included. -/
theorem configures_finite (finite : (Set.range host.readFile).Finite) : {file | host.Configures file}.Finite := by
  let expanded (content : Option CString) : Set Path := {path | ∃ text ∈ content, path ∈ expandedPaths host text}
  have small (content : Option CString) : (expanded content).Finite := by
    cases content with
    | none => simp [expanded]
    | some text => exact (expandedPaths host text).finite_toSet.subset (by simp [expanded])
  refine ((finite.biUnion fun content _ => small content).insert (ascii "/etc/ld.so.conf")).subset ?_
  intro file configures
  cases Relation.ReflTransGen.cases_tail configures with
  | inl isRoot => exact .inl isRoot
  | inr through =>
      obtain ⟨before, _, included⟩ := through
      obtain ⟨text, read, member⟩ := included.mem_expandedPaths
      exact .inr (Set.mem_biUnion (Set.mem_range_self before) ⟨text, read, member⟩)

theorem readLdsoconf_eq (host : Host) :
    readLdsoconf host =
      descend (visits host) .stackOverflow host.stackDepth host.freeDescriptors [] (ascii "/etc/ld.so.conf") := by
  rw [readLdsoconf, readLdsoconfDfs_eq]

theorem acyclic_visits :
    Acyclic (visits host) (ascii "/etc/ld.so.conf") ↔
      ∀ file, host.Configures file → ¬ Relation.TransGen host.Includes file file := by
  rw [Acyclic, Reaches, leads_visits]
  rfl

/-- `read_ldsoconf` returns with every directory that is listed if descriptors run
out before the stack does, or no call is nested that deep, and every directory is
listed within reach of the descriptors.  In a file system with finitely many texts,
this is so under all large limits exactly if no file that it comes to includes
itself, be it through other files. -/
theorem readLdsoconf_returns_iff (finite : (Set.range host.readFile).Finite) :
    ((∃ directories, readLdsoconf host = .ok directories ∧
        ∀ directory, host.Lists directory → directory ∈ directories) ↔
      (host.freeDescriptors < host.stackDepth ∨
        ∀ file, ¬ StepsTo host.Includes host.stackDepth (ascii "/etc/ld.so.conf") file) ∧
      ∀ directory, host.Lists directory → host.ListsWithin host.freeDescriptors directory) ∧
    ((∃ limit, ∀ depth ≥ limit, ∀ files ≥ limit, ∃ directories,
        readLdsoconf { host with stackDepth := depth, freeDescriptors := files } = .ok directories ∧
          ∀ directory, host.Lists directory → directory ∈ directories) ↔
      ∀ file, host.Configures file → ¬ Relation.TransGen host.Includes file file) := by
  constructor
  · simp only [readLdsoconf_eq, ← yields_visits, ← yieldsWithin_visits, ← leads_visits]
    exact descend_returns_iff
  · have reached : {file | Reaches (visits host) (ascii "/etc/ld.so.conf") file}.Finite := by
      rw [Reaches, leads_visits]
      exact configures_finite finite
    simp only [readLdsoconf_eq, ← yields_visits, ← acyclic_visits]
    exact descend_complete_iff Stop.stackOverflow reached

namespace Sample

/-- The files that can be opened, and what the patterns expand to. -/
def confHost (files : List (Path × CString)) (expanded : List (CString × List Path)) : Host :=
  { Sample.host [] (fun _ => none) with
    readFile := fun path => files.lookup path
    glob := fun pattern => (expanded.lookup pattern).getD [] }

theorem confHost_finite (files : List (Path × CString)) (expanded : List (CString × List Path)) :
    (Set.range (confHost files expanded).readFile).Finite := by
  refine ((none :: files.map fun file => some file.2).finite_toSet).subset ?_
  intro content inRange
  obtain ⟨path, rfl⟩ := inRange
  cases found : (confHost files expanded).readFile path with
  | none => exact List.mem_cons_self
  | some text =>
      obtain ⟨before, after, split, _⟩ := List.lookup_eq_some_iff.mp found
      rw [split]
      simp

def optConf : Host :=
  confHost [(ascii "/etc/ld.so.conf", ascii "include /etc/ld.so.conf.d/*.conf\n"),
      (ascii "/etc/ld.so.conf.d/opt.conf", ascii "# optional\n/opt/lib\n")]
    [(ascii "/etc/ld.so.conf.d/*.conf", [ascii "/etc/ld.so.conf.d/opt.conf"])]

theorem optConf_visits :
    visits optConf (ascii "/etc/ld.so.conf") = [.inr (ascii "/etc/ld.so.conf.d/opt.conf")] ∧
      visits optConf (ascii "/etc/ld.so.conf.d/opt.conf") = [.inl (ascii "/opt/lib")] := by
  decide

theorem optConf_includes {file other : Path} (included : optConf.Includes file other) :
    file = ascii "/etc/ld.so.conf" ∧ other = ascii "/etc/ld.so.conf.d/opt.conf" := by
  rw [← leads_visits, Leads] at included
  by_cases isRoot : file = ascii "/etc/ld.so.conf"
  · rw [isRoot, optConf_visits.1, List.mem_singleton] at included
    exact ⟨isRoot, Sum.inr_injective included⟩
  · by_cases isOpt : file = ascii "/etc/ld.so.conf.d/opt.conf"
    · rw [isOpt, optConf_visits.2] at included
      simp at included
    · have absent : optConf.readFile file = none := by
        apply List.lookup_eq_none_iff.mpr
        intro entry member
        simp only [List.mem_cons, List.not_mem_nil, or_false] at member
        cases member with
        | inl first => simpa [first] using isRoot
        | inr second => simpa [second] using isOpt
      rw [visits, absent] at included
      contradiction

theorem optConf_acyclic (file : Path) : ¬ Relation.TransGen optConf.Includes file file := by
  intro cycle
  obtain ⟨other, first, _⟩ := Relation.TransGen.head'_iff.mp cycle
  obtain ⟨before, _, last⟩ := Relation.TransGen.tail'_iff.mp cycle
  have starts := (optConf_includes first).1
  have ends := (optConf_includes last).2
  rw [starts] at ends
  exact absurd ends (by decide)

theorem optConf_lists : optConf.Lists (ascii "/opt/lib") := by
  have included : Leads (visits optConf) (ascii "/etc/ld.so.conf") (ascii "/etc/ld.so.conf.d/opt.conf") := by
    rw [Leads, optConf_visits.1]
    exact List.mem_singleton.mpr rfl
  have listed : .inl (ascii "/opt/lib") ∈ visits optConf (ascii "/etc/ld.so.conf.d/opt.conf") := by
    rw [optConf_visits.2]
    exact List.mem_singleton.mpr rfl
  exact yields_visits.mp ⟨_, .single included, listed⟩

theorem readLdsoconf_returns_optLib :
    optConf.Lists (ascii "/opt/lib") ∧
      ∃ limit, ∀ depth ≥ limit, ∀ files ≥ limit, ∃ directories,
        readLdsoconf { optConf with stackDepth := depth, freeDescriptors := files } = .ok directories ∧
          ∀ directory, optConf.Lists directory → directory ∈ directories := by
  refine ⟨optConf_lists, ?_⟩
  apply (readLdsoconf_returns_iff (confHost_finite _ _)).2.mpr
  intro file _
  exact optConf_acyclic file

/-- The configuration includes itself. -/
def selfConf : Host :=
  confHost [(ascii "/etc/ld.so.conf", ascii "include /etc/ld.so.conf\n")]
    [(ascii "/etc/ld.so.conf", [ascii "/etc/ld.so.conf"])]

/-- Where there are more descriptors than the stack has room for calls, the stack
overflows. -/
theorem readLdsoconf_selfConf :
    (Set.range selfConf.readFile).Finite ∧
      ∀ depth files, depth ≤ files → ∀ directories,
        readLdsoconf { selfConf with stackDepth := depth, freeDescriptors := files } ≠ .ok directories := by
  refine ⟨confHost_finite _ _, fun depth files wide directories returned => ?_⟩
  rw [readLdsoconf_eq] at returned
  have here : visits selfConf (ascii "/etc/ld.so.conf") = [.inr (ascii "/etc/ld.so.conf")] := by decide
  have included : Leads (visits selfConf) (ascii "/etc/ld.so.conf") (ascii "/etc/ld.so.conf") := by
    rw [Leads, here]
    exact List.mem_singleton.mpr rfl
  have endless : Endless (visits selfConf) (ascii "/etc/ld.so.conf") := ⟨_, .refl, .single included⟩
  obtain ⟨other, walk⟩ := endless.walk depth
  exact descend_exhausts wide walk [] directories returned

end Sample

end Sloader
