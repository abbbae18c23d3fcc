import Sloader.Data.Linking
import Sloader.Loader.BreadthFirst
import Sloader.Run.Once

namespace Sloader

open Data

/-! The link map over whole runs.

What one call of `LoadDependingLibs` adds is a breadth-first exploration from its
root that leaves out the names `loaded_` has already, so that a state of a run is
a history of explorations (`Run.linkMap`).  What holds of all histories then
holds of the loader: which names it has marked, and where the file behind a name
comes from. -/

abbrev LinkSession := Session CString Request ELFBinary

/-- The exploration is that of a root at `path`, and every other binary is the
file that `FindLibrary` led to. -/
structure LinkSession.Opens (host : Host) (path : Path) (session : LinkSession) : Prop where
  name : session.root = filename path
  root : ∃ binary, session.nodes[0]? = some binary ∧ binary.path = path
  lookup : ∀ index request binary, session.taken[index]? = some request → session.nodes[index + 1]? = some binary →
    findLibrary host request.libraryName request.runpath request.rpath = .ok binary.path

/-- How a call of `LoadDependingLibs` came by its root. -/
def IsRoot (host : Host) (mainPath path : Path) : Prop :=
  path = mainPath ∨ ∃ file, findLibrary host file none none = .ok path

namespace DynLoader

/-- The binaries and the names of a loader, by the explorations that led to them. -/
structure LinkMap (host : Host) (loader : DynLoader) (history : List LinkSession) : Prop where
  binaries : loader.binaries = history.flatMap Session.nodes
  loaded : ∀ name, name ∈ loader.loaded ↔ name ∈ met Request.libraryName ELFBinary.requests history
  linked : Linked Request.libraryName isSkipped ELFBinary.requests history

variable {host : Host} {start loader next loaded : DynLoader} {mainPath rootPath : Path} {queue rest : List Request}
  {new : List ELFBinary} {taken : List Request} {request : Request} {history : List LinkSession} {steps : Nat}
  {name : CString}

/-- `LoadDependingLibs` under way from any state: the binaries it has added, and
the requests that it added them for. -/
structure Exploring (host : Host) (start : DynLoader) (rootPath : Path) (loader : DynLoader) (queue : List Request)
    (new : List ELFBinary) (taken : List Request) : Prop where
  binaries : loader.binaries = start.binaries ++ new
  explored : Explored Request.libraryName isSkipped ELFBinary.requests (filename rootPath :: start.loaded)
    new taken loader.loaded queue
  opens : LinkSession.Opens host rootPath ⟨filename rootPath, new, taken⟩

theorem Exploring.root (ran : start.loadRoot host rootPath = .ok (loader, queue)) :
    ∃ binary, Exploring host start rootPath loader queue [binary] [] := by
  obtain ⟨binary, emplaced, added, rfl, rfl⟩ := loadRoot_spec ran
  have binaries : emplaced.binaries = start.binaries ++ [binary] := emplace_binaries added
  refine ⟨binary, binaries, .start ?_, rfl, ⟨binary, rfl, emplace_path added⟩, by simp⟩
  intro name
  rw [insertLoaded, emplace_loaded added]

/-- Nothing is added for a name that is marked, and for one that is left out. -/
theorem Exploring.drop (exploring : Exploring host start rootPath loader (request :: queue) new taken)
    (skip : request.libraryName ∈ loader.loaded ∨ isSkipped request.libraryName = true)
    (binaries : next.binaries = loader.binaries)
    (marked : ∀ name, name ∈ next.loaded ↔ name = request.libraryName ∨ name ∈ loader.loaded) :
    Exploring host start rootPath next queue new taken :=
  ⟨binaries.trans exploring.binaries, exploring.explored.drop skip marked, exploring.opens⟩

theorem Exploring.take {path : Path} {binary : ELFBinary}
    (exploring : Exploring host start rootPath loader (request :: queue) new taken)
    (unknown : request.libraryName ∉ loader.loaded) (wanted : isSkipped request.libraryName = false)
    (found : findLibrary host request.libraryName request.runpath request.rpath = .ok path)
    (emplaced : (loader.insertLoaded request.libraryName).emplace host path = .ok (binary, next)) :
    Exploring host start rootPath next (queue ++ binary.requests) (new ++ [binary]) (taken ++ [request]) := by
  obtain ⟨binaries, explored, named, ⟨root, first, isRoot⟩, lookup⟩ := exploring
  have aligned := explored.aligned
  refine ⟨?_, ?_, named, ⟨root, ?_, isRoot⟩, ?_⟩
  · rw [emplace_binaries emplaced, insertLoaded, binaries, List.append_assoc]
  · refine explored.take unknown wanted ?_
    intro name
    rw [emplace_loaded emplaced, insertLoaded, List.mem_cons]
  · rw [List.getElem?_append_left (by omega)]
    exact first
  · intro index other library isTaken isNode
    change (taken ++ [request])[index]? = some other at isTaken
    change (new ++ [binary])[index + 1]? = some library at isNode
    by_cases old : index < taken.length
    · rw [List.getElem?_append_left old] at isTaken
      rw [List.getElem?_append_left (by omega)] at isNode
      exact lookup index other library isTaken isNode
    · have last : index = taken.length := by
        have bound := (List.getElem?_eq_some_iff.mp isTaken).1
        rw [List.length_append, List.length_singleton] at bound
        omega
      rw [last, List.getElem?_concat_length] at isTaken
      rw [last, ← aligned, List.getElem?_concat_length] at isNode
      cases isTaken
      cases isNode
      rw [emplace_path emplaced]
      exact found

theorem Visits.exploring (visited : Visits host start rootPath loader queue) :
    ∃ new taken, Exploring host start rootPath loader queue new taken := by
  induction visited with
  | root ran =>
      obtain ⟨binary, exploring⟩ := Exploring.root ran
      exact ⟨[binary], [], exploring⟩
  | pop _ ran ih =>
      obtain ⟨new, taken, exploring⟩ := ih
      rcases popRequest_cases ran with
        ⟨known, rfl, rfl⟩ | ⟨_, skipped, rfl, rfl⟩ | ⟨unknown, wanted, path, binary, found, emplaced, rfl⟩
      · refine ⟨new, taken, exploring.drop (.inl known) rfl fun name => ⟨.inr, ?_⟩⟩
        rintro (rfl | marked)
        · exact known
        · exact marked
      · exact ⟨new, taken, exploring.drop (.inr skipped) rfl fun _ => List.mem_cons⟩
      · exact ⟨_, _, exploring.take unknown wanted found emplaced⟩

theorem LinkMap.fresh (memory : Memory) : LinkMap host (DynLoader.fresh memory) [] :=
  ⟨rfl, fun _ => Iff.rfl, .nothing⟩

theorem LinkMap.keep (linkMap : LinkMap host loader history) (binaries : next.binaries = loader.binaries)
    (marked : next.loaded = loader.loaded) : LinkMap host next history :=
  ⟨binaries.trans linkMap.binaries, fun name => marked ▸ linkMap.loaded name, linkMap.linked⟩

/-- A call adds one exploration to the history. -/
theorem LinkMap.load (linkMap : LinkMap host start history)
    (ran : start.loadDependingLibs host steps rootPath = .ok loaded) :
    ∃ session, session.Opens host rootPath ∧ LinkMap host loaded (history ++ [session]) := by
  obtain ⟨new, taken, exploring⟩ := (Visits.of_loadDependingLibs ran).exploring
  refine ⟨⟨filename rootPath, new, taken⟩, exploring.opens, ?_, ?_, ?_⟩
  · rw [exploring.binaries, linkMap.binaries, List.flatMap_append, List.flatMap_singleton]
  · intro name
    exact exploring.explored.met_append linkMap.loaded
  · exact .explore linkMap.linked (exploring.explored.finished linkMap.loaded)

theorem relocate_loaded (ran : loader.relocate host = .ok next) : next.loaded = loader.loaded := by
  obtain ⟨_, _, same⟩ := relocate_pass ran
  rw [same]

/-- The explorations of a run: the first is that of the program, and the roots of
the others are what `sloader_dlopen` found. -/
theorem Run.history_exists (run : Run host mainPath loader) :
    ∃ main opened, LinkMap host loader (main :: opened) ∧ main.Opens host mainPath ∧
      ∀ session ∈ opened, ∃ file path, findLibrary host file none none = .ok path ∧ session.Opens host path := by
  induction run with
  | startup libraries ran =>
      obtain ⟨main, opens, linkMap⟩ := (LinkMap.fresh _).load libraries
      exact ⟨main, [], linkMap.keep (relocate_binaries ran) (relocate_loaded ran), opens, by simp⟩
  | program _ memory ih =>
      obtain ⟨main, opened, linkMap, rest⟩ := ih
      exact ⟨main, opened, linkMap.keep rfl rfl, rest⟩
  | tls _ ran ih =>
      obtain ⟨main, opened, linkMap, rest⟩ := ih
      have same := executeTls_bookkeeping ran
      exact ⟨main, opened, linkMap.keep same.binaries same.loaded, rest⟩
  | @dlopen loader next steps file handle _ ran ih =>
      obtain ⟨main, opened, linkMap, isMain, areOpened⟩ := ih
      cases file with
      | none =>
          cases ran
          exact ⟨main, opened, linkMap, isMain, areOpened⟩
      | some file =>
          cases wanted : isSkipped file with
          | true =>
              simp only [sloaderDlopen, wanted, if_true, Except.ok.injEq, Prod.mk.injEq] at ran
              exact ⟨main, opened, linkMap.keep (ran.2 ▸ rfl) (ran.2 ▸ rfl), isMain, areOpened⟩
          | false =>
              obtain ⟨path, loaded, found, loads, relocates, _⟩ := sloaderDlopen_steps wanted ran
              obtain ⟨session, opens, after⟩ := linkMap.load loads
              refine ⟨main, opened ++ [session],
                after.keep (relocate_binaries relocates) (relocate_loaded relocates), isMain, ?_⟩
              intro other member
              rcases List.mem_append.mp member with old | new
              · exact areOpened other old
              · rw [List.mem_singleton.mp new]
                exact ⟨file, path, found, opens⟩

/-- The nodes of an exploration come in the order of their distance from its root. -/
theorem distance_monotone {session : LinkSession} {known : List CString}
    (finished : session.Finished Request.libraryName isSkipped ELFBinary.requests known) {earlier later : Nat}
    (ordered : earlier ≤ later) (bound : later < session.nodes.length) :
    distance (Lists session.nodes (session.taken.map Request.libraryName)) earlier ≤
      distance (Lists session.nodes (session.taken.map Request.libraryName)) later := by
  obtain ⟨_, explored⟩ := finished
  have parents := explored.firstParents
  have edges : Explored.Offers Request.libraryName ELFBinary.requests session.nodes session.taken =
      Lists session.nodes (session.taken.map Request.libraryName) := by
    funext source target
    exact propext offers_iff
  rw [edges] at parents
  exact parents.distance_monotone ordered bound

/-- In every state of every run, `binaries_` is a sequence of explorations of the
`DT_NEEDED` graph, that of the program first and then one for each library opened.
Each takes, in breadth-first order, the names that are new to it and not left out,
`loaded_` holds what all of them have met, and no name is taken twice. -/
theorem Run.linkMap (run : Run host mainPath loader) :
    ∃ main opened, LinkMap host loader (main :: opened) ∧ main.Opens host mainPath ∧
      (∀ session ∈ opened, ∃ file path, findLibrary host file none none = .ok path ∧ session.Opens host path) ∧
      (((main :: opened).flatMap Session.taken).map Request.libraryName).Nodup ∧
      ∀ session ∈ main :: opened, ∀ earlier later, earlier ≤ later → later < session.nodes.length →
        distance (Lists session.nodes (session.taken.map Request.libraryName)) earlier ≤
          distance (Lists session.nodes (session.taken.map Request.libraryName)) later := by
  obtain ⟨main, opened, linkMap, isMain, areOpened⟩ := run.history_exists
  refine ⟨main, opened, linkMap, isMain, areOpened, linkMap.linked.taken_nodup, ?_⟩
  intro session member earlier later ordered bound
  obtain ⟨known, finished⟩ := linkMap.linked.finished member
  exact distance_monotone finished ordered bound

theorem Run.linkMap_openedTwice :
    ∃ loader, Run dlopenHost (ascii "/bin/m") loader ∧
      loader.binaries.map ELFBinary.path = [ascii "/bin/m", ascii "/lib/a", ascii "/lib/a"] ∧
      ∃ main opened, LinkMap dlopenHost loader (main :: opened) ∧ main.Opens dlopenHost (ascii "/bin/m") := by
  obtain ⟨once, twice, ran, _, run⟩ := exists_openedTwice
  have facts := openedTwice_facts
  rw [ran] at facts
  obtain ⟨_, _, mapped, _⟩ := of_decide_eq_true (Option.some.inj facts)
  have paths := congrArg (List.map Prod.fst) mapped
  rw [List.map_map] at paths
  obtain ⟨main, opened, linkMap, isMain, _⟩ := run.linkMap
  exact ⟨twice, run, paths, main, opened, linkMap, isMain⟩

/-- A binary that was opened under the name, or one that was loaded for a binary
that needs it, from where that binary looks for it. -/
def Provides (host : Host) (mainPath : Path) (binaries : List ELFBinary) (name : CString) (library : ELFBinary) :
    Prop :=
  library ∈ binaries ∧
    (IsRoot host mainPath library.path ∧ filename library.path = name ∨
      ∃ lister ∈ binaries, name ∈ lister.neededs ∧
        findLibrary host name lister.runpath lister.rpath = .ok library.path)

theorem LinkMap.node_mem (linkMap : LinkMap host loader history) {session : LinkSession} {index : Nat}
    {binary : ELFBinary} (member : session ∈ history) (found : session.nodes[index]? = some binary) :
    binary ∈ loader.binaries := by
  rw [linkMap.binaries]
  exact List.mem_flatMap.mpr ⟨session, member, List.mem_of_getElem? found⟩

/-- The binary that a name was taken for. -/
theorem LinkMap.taken_provides (linkMap : LinkMap host loader history) {session : LinkSession} {path : Path}
    (member : session ∈ history) (opens : session.Opens host path) (isTaken : request ∈ session.taken) :
    ∃ library, Provides host mainPath loader.binaries request.libraryName library := by
  obtain ⟨known, _, explored⟩ := linkMap.linked.finished member
  obtain ⟨index, bound, rfl⟩ := List.getElem_of_mem isTaken
  have aligned := explored.aligned
  have found : session.nodes[index + 1]? = some session.nodes[index + 1] := List.getElem?_eq_getElem (by omega)
  have looked := opens.lookup index _ _ (List.getElem?_eq_getElem bound) found
  obtain ⟨lister, isNode, offered⟩ := List.mem_flatMap.mp (explored.taken_offered isTaken)
  obtain ⟨needed, isNeeded, same⟩ := List.mem_map.mp offered
  refine ⟨session.nodes[index + 1], linkMap.node_mem member found, .inr ⟨lister, ?_, ?_, ?_⟩⟩
  · rw [linkMap.binaries]
    exact List.mem_flatMap.mpr ⟨session, member, isNode⟩
  · rw [← same]
    exact isNeeded
  · rw [← looked, ← same]

theorem LinkMap.root_provides (linkMap : LinkMap host loader history) {session : LinkSession} {path : Path}
    (member : session ∈ history) (opens : session.Opens host path) (isRoot : IsRoot host mainPath path) :
    ∃ library, Provides host mainPath loader.binaries session.root library := by
  obtain ⟨binary, first, rfl⟩ := opens.root
  exact ⟨binary, linkMap.node_mem member first, .inl ⟨isRoot, opens.name.symm⟩⟩

/-- In every state of every run, `loaded_` has every name that a binary needs, and
for each name in it that is not left out there is a binary in `binaries_`. -/
theorem Run.needed_provided (run : Run host mainPath loader) :
    (∀ binary ∈ loader.binaries, ∀ name ∈ binary.neededs, name ∈ loader.loaded) ∧
    ∀ name ∈ loader.loaded, isSkipped name = false →
      ∃ library, Provides host mainPath loader.binaries name library := by
  obtain ⟨main, opened, linkMap, isMain, areOpened⟩ := run.history_exists
  have isOpen : ∀ session ∈ main :: opened, ∃ path, IsRoot host mainPath path ∧ session.Opens host path := by
    intro session member
    rcases List.mem_cons.mp member with rfl | inOpened
    · exact ⟨mainPath, .inl rfl, isMain⟩
    · obtain ⟨file, path, found, opens⟩ := areOpened session inOpened
      exact ⟨path, .inr ⟨file, found⟩, opens⟩
  constructor
  · intro binary member name needed
    rw [linkMap.binaries] at member
    obtain ⟨request, offered, rfl⟩ := List.mem_map.mp (binary.requests_names ▸ needed)
    exact (linkMap.loaded _).mpr (mem_met_of_offered member offered)
  · intro name marked wanted
    rcases linkMap.linked.met_taken ((linkMap.loaded name).mp marked) wanted with root | taken
    · obtain ⟨session, member, rfl⟩ := List.mem_map.mp root
      obtain ⟨path, isRoot, opens⟩ := isOpen session member
      exact linkMap.root_provides member opens isRoot
    · obtain ⟨request, inHistory, rfl⟩ := List.mem_map.mp taken
      obtain ⟨session, member, isTaken⟩ := List.mem_flatMap.mp inHistory
      obtain ⟨path, _, opens⟩ := isOpen session member
      exact linkMap.taken_provides member opens isTaken

theorem Run.needed_provided_cyclicHost :
    ∃ loader, Run cyclicHost (ascii "/bin/m") loader ∧
      ascii "b" ∈ loader.loaded ∧ ∃ library, Provides cyclicHost (ascii "/bin/m") loader.binaries (ascii "b") library := by
  have facts : (Sample.startup cyclicHost (ascii "/bin/m")).toOption.map (fun loader => decide (
      loader.binaries.head?.map ELFBinary.neededs = some [ascii "b", ascii "a", ascii "a", ascii "m"])) = some true := by
    decide +kernel
  obtain ⟨loader, run, checked⟩ := exists_startup facts
  obtain ⟨main, first, neededs⟩ := Option.map_eq_some_iff.mp (of_decide_eq_true checked)
  obtain ⟨marked, provided⟩ := run.needed_provided
  have isMarked := marked main (List.mem_of_head? first) (ascii "b") (by rw [neededs]; decide)
  exact ⟨loader, run, isMarked, provided (ascii "b") isMarked (by decide)⟩

end DynLoader

end Sloader
