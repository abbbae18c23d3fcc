import Sloader.Data.Breadth
import Sloader.Loader.Queue
import Sloader.Sample

namespace Sloader

open Data

/-! `LoadDependingLibs` explores the `DT_NEEDED` graph breadth first: which names
it marks, which libraries it loads, where it looks for each, and in which order. -/

theorem ELFBinary.requests_names (binary : ELFBinary) :
    binary.requests.map Request.libraryName = binary.neededs := by
  rw [ELFBinary.requests, List.map_map]
  exact List.map_id _

namespace DynLoader

/-- The least set that contains the names the root needs and, for each name that
a library was loaded for, the names this library needs. -/
inductive Needed (binaries : List ELFBinary) (names : List CString) : CString → Prop where
  | root {binary : ELFBinary} {name : CString} (first : binaries[0]? = some binary)
      (listed : name ∈ binary.neededs) : Needed binaries names name
  | library {parent name : CString} {binary : ELFBinary} {index : Nat}
      (needed : Needed binaries names parent) (loadedFor : names[index]? = some parent)
      (found : binaries[index + 1]? = some binary) (listed : name ∈ binary.neededs) :
      Needed binaries names name

def firstLister (binaries : List ELFBinary) (name : CString) : Nat :=
  binaries.findIdx fun binary => binary.neededs.contains name

def listedAt (binaries : List ELFBinary) (name : CString) : Nat :=
  match binaries[firstLister binaries name]? with
  | some binary => binary.neededs.idxOf name
  | none => 0

/-- The binary at index `source` lists the name of the one at index `target`. -/
def Lists (binaries : List ELFBinary) (names : List CString) (source target : Nat) : Prop :=
  ∃ binary name, binaries[source]? = some binary ∧ 0 < target ∧ names[target - 1]? = some name ∧
    name ∈ binary.neededs

/-- A finished breadth-first load of a root. -/
structure BreadthFirst (host : Host) (rootPath : Path) (after : DynLoader) (names : List CString) : Prop where
  aligned : after.binaries.length = names.length + 1
  root : ∃ binary, after.binaries[0]? = some binary ∧ binary.path = rootPath
  loaded : ∀ name, name ∈ after.loaded ↔ name = filename rootPath ∨ Needed after.binaries names name
  once : names.Nodup
  exact : ∀ name, name ∈ names ↔
    Needed after.binaries names name ∧ name ≠ filename rootPath ∧ isSkipped name = false
  lookup : ∀ index name binary, names[index]? = some name → after.binaries[index + 1]? = some binary →
    ∃ lister, after.binaries[firstLister after.binaries name]? = some lister ∧ name ∈ lister.neededs ∧
      findLibrary host name lister.runpath lister.rpath = .ok binary.path
  reached : ∀ index < after.binaries.length, ∃ length, Walk (Lists after.binaries names) length index
  distance : ∀ earlier later, earlier ≤ later → later < after.binaries.length →
    distance (Lists after.binaries names) earlier ≤ distance (Lists after.binaries names) later
  ties : names.Pairwise fun earlier later =>
    firstLister after.binaries earlier < firstLister after.binaries later ∨
      firstLister after.binaries earlier = firstLister after.binaries later ∧
        listedAt after.binaries earlier < listedAt after.binaries later

variable {host : Host} {memory : Memory} {loader after : DynLoader} {rootPath : Path}
  {taken queue : List Request} {binaries : List ELFBinary}

theorem firstSpot_lister (name : CString) :
    (Explored.firstSpot Request.libraryName ELFBinary.requests binaries name).1 = firstLister binaries name := by
  rw [Explored.firstSpot_eq]
  simp only [ELFBinary.requests_names, firstLister, List.contains_eq_mem]

theorem firstSpot_position (name : CString) :
    (Explored.firstSpot Request.libraryName ELFBinary.requests binaries name).2 = listedAt binaries name := by
  have lister := @firstSpot_lister binaries name
  simp only [Explored.firstSpot, spot] at lister ⊢
  rw [lister, listedAt, List.getD_eq_getElem?_getD, List.getElem?_map]
  cases binaries[firstLister binaries name]? with
  | none => rfl
  | some binary =>
      simp only [Option.map_some, Option.getD_some, ELFBinary.requests, List.findIdx_map, List.idxOf]
      congr 1
      funext other
      rw [Bool.eq_iff_iff]
      simp

theorem offers_iff {source target : Nat} :
    Explored.Offers Request.libraryName ELFBinary.requests binaries taken source target ↔
      Lists binaries (taken.map Request.libraryName) source target := by
  constructor
  · rintro ⟨binary, request, found, positive, taken, offered⟩
    rw [ELFBinary.requests_names] at offered
    exact ⟨binary, request.libraryName, found, positive, by simp [taken], offered⟩
  · rintro ⟨binary, name, found, positive, taken, listed⟩
    rw [List.getElem?_map, Option.map_eq_some_iff] at taken
    obtain ⟨request, isTaken, rfl⟩ := taken
    exact ⟨binary, request, found, positive, isTaken, by rwa [ELFBinary.requests_names]⟩

structure Loading (host : Host) (rootPath : Path) (loader : DynLoader) (taken queue : List Request) : Prop where
  explored : Explored Request.libraryName isSkipped ELFBinary.requests [filename rootPath]
    loader.binaries taken loader.loaded queue
  root : ∃ binary, loader.binaries[0]? = some binary ∧ binary.path = rootPath
  lookup : ∀ index request binary, taken[index]? = some request → loader.binaries[index + 1]? = some binary →
    findLibrary host request.libraryName request.runpath request.rpath = .ok binary.path

theorem Loading.start {queue : List Request}
    (ran : (fresh memory).loadRoot host rootPath = .ok (loader, queue)) :
    Loading host rootPath loader [] queue := by
  obtain ⟨binary, emplaced, added, rfl, rfl⟩ := loadRoot_spec ran
  have binaries : emplaced.binaries = [binary] := emplace_binaries added
  have loaded : emplaced.loaded = [] := emplace_loaded added
  refine ⟨?_, ⟨binary, ?_, emplace_path added⟩, by simp⟩
  · change Explored _ _ _ _ emplaced.binaries _ (filename rootPath :: emplaced.loaded) _
    rw [binaries, loaded]
    exact .start fun _ => Iff.rfl
  · change emplaced.binaries[0]? = some binary
    rw [binaries]
    rfl

theorem Loading.step {request : Request} {next : DynLoader} {rest : List Request}
    (loading : Loading host rootPath loader taken (request :: queue))
    (ran : loader.popRequest host request queue = .ok (next, rest)) :
    ∃ taken, Loading host rootPath next taken rest := by
  rcases popRequest_cases ran with
    ⟨known, rfl, rfl⟩ | ⟨_, skipped, rfl, rfl⟩ | ⟨unknown, wanted, path, binary, found, emplaced, rfl⟩
  · refine ⟨taken, loading.explored.drop (.inl known) ?_, loading.root, loading.lookup⟩
    intro name
    exact ⟨.inr, fun marked => marked.elim (fun same => same ▸ known) id⟩
  · exact ⟨taken, loading.explored.drop (.inr skipped) fun _ => List.mem_cons, loading.root, loading.lookup⟩
  · have loaded : next.loaded = request.libraryName :: loader.loaded := emplace_loaded emplaced
    have binaries := emplace_binaries emplaced
    simp only [insertLoaded] at binaries
    have aligned := loading.explored.aligned
    refine ⟨taken ++ [request], ?_, ?_, ?_⟩
    · rw [binaries, loaded]
      exact loading.explored.take unknown wanted fun _ => List.mem_cons
    · obtain ⟨root, first, isRoot⟩ := loading.root
      refine ⟨root, ?_, isRoot⟩
      rw [binaries, List.getElem?_append_left (by omega)]
      exact first
    · intro index other library isTaken isLoaded
      rw [binaries] at isLoaded
      by_cases old : index < taken.length
      · rw [List.getElem?_append_left old] at isTaken
        rw [List.getElem?_append_left (by omega)] at isLoaded
        exact loading.lookup index other library isTaken isLoaded
      · have last : index = taken.length := by
          have bound := (List.getElem?_eq_some_iff.mp isTaken).1
          simp only [List.length_append, List.length_singleton] at bound
          omega
        subst last
        rw [← aligned] at isLoaded
        have sameRequest : request = other := by simpa using isTaken
        have sameBinary : binary = library := by simpa using isLoaded
        rw [← sameRequest, ← sameBinary, emplace_path emplaced]
        exact found

theorem Visits.loading (visited : Visits host (fresh memory) rootPath loader queue) :
    ∃ taken, Loading host rootPath loader taken queue := by
  induction visited with
  | root ran => exact ⟨[], Loading.start ran⟩
  | pop _ ran ih =>
      obtain ⟨taken, loading⟩ := ih
      exact loading.step ran

theorem offered_iff {name : CString} :
    name ∈ (binaries.flatMap ELFBinary.requests).map Request.libraryName ↔
      ∃ binary ∈ binaries, name ∈ binary.neededs := by
  simp only [List.map_flatMap, List.mem_flatMap, ELFBinary.requests_names]

/-- The closure is what the loaded binaries list.  The induction is on the load
order: a library was listed by a binary before it. -/
theorem Loading.needed_iff (loading : Loading host rootPath loader taken queue) {name : CString} :
    Needed loader.binaries (taken.map Request.libraryName) name ↔
      ∃ binary ∈ loader.binaries, name ∈ binary.neededs := by
  constructor
  · intro needed
    cases needed with
    | root first listed => exact ⟨_, List.mem_of_getElem? first, listed⟩
    | library _ _ found listed => exact ⟨_, List.mem_of_getElem? found, listed⟩
  · rintro ⟨binary, member, listed⟩
    obtain ⟨index, bound, here⟩ := List.getElem_of_mem member
    have found : loader.binaries[index]? = some binary := List.getElem?_eq_some_iff.mpr ⟨bound, here⟩
    clear here member
    induction index using Nat.strong_induction_on generalizing binary name with
    | _ index ih =>
        cases index with
        | zero => exact .root found listed
        | succ index =>
            have aligned := loading.explored.aligned
            have within : index < taken.length := by omega
            have isTaken := List.getElem?_eq_getElem within
            obtain ⟨lister, isLister, offered⟩ :=
              List.mem_flatMap.mp (loading.explored.grounded index _ isTaken)
            obtain ⟨source, sourceBound, listerHere⟩ := List.getElem_of_mem isLister
            simp only [List.length_take] at sourceBound
            rw [List.getElem_take] at listerHere
            have parentListed : taken[index].libraryName ∈ lister.neededs := by
              rw [← lister.requests_names]
              exact List.mem_map_of_mem offered
            have parent := ih source (by omega) lister parentListed (by omega)
              (List.getElem?_eq_some_iff.mpr ⟨by omega, listerHere⟩)
            exact .library parent (by rw [List.getElem?_map, isTaken]; rfl) found listed

theorem Loading.breadthFirst (loading : Loading host rootPath after taken []) :
    BreadthFirst host rootPath after (taken.map Request.libraryName) := by
  have explored := loading.explored
  have edges : Explored.Offers Request.libraryName ELFBinary.requests after.binaries taken =
      Lists after.binaries (taken.map Request.libraryName) := by
    funext source target
    exact propext offers_iff
  have parents := explored.firstParents
  rw [edges] at parents
  have ties : (taken.map Request.libraryName).Pairwise fun earlier later =>
      firstLister after.binaries earlier < firstLister after.binaries later ∨
        firstLister after.binaries earlier = firstLister after.binaries later ∧
          listedAt after.binaries earlier < listedAt after.binaries later := by
    rw [List.pairwise_map]
    simpa only [firstSpot_lister, firstSpot_position] using explored.taken_pairwise
  refine ⟨by simpa using explored.aligned, loading.root, ?_, ?_, ?_, ?_, ?_, ?_, ties⟩
  · intro name
    rw [explored.mem_seen, List.mem_singleton, offered_iff, loading.needed_iff]
  · refine ties.imp ?_
    rintro earlier later ordered rfl
    omega
  · intro name
    rw [explored.key_taken, offered_iff, loading.needed_iff, List.mem_singleton]
  · intro index name binary isName found
    rw [List.getElem?_map, Option.map_eq_some_iff] at isName
    obtain ⟨request, isTaken, rfl⟩ := isName
    obtain ⟨lister, isLister, offered⟩ := explored.taken_first (List.mem_of_getElem? isTaken)
    rw [firstSpot_lister] at isLister
    obtain ⟨name, listed, rfl⟩ := List.mem_map.mp offered
    exact ⟨lister, isLister, listed, loading.lookup index _ binary isTaken found⟩
  · exact parents.walk_exists
  · intro earlier later ordered bound
    exact parents.distance_monotone ordered bound

theorem loadDependingLibs_completed {steps : Nat}
    (ran : (fresh memory).loadDependingLibs host steps rootPath = .ok after) :
    ∃ names, BreadthFirst host rootPath after names := by
  obtain ⟨taken, loading⟩ := (Visits.of_loadDependingLibs ran).loading
  exact ⟨_, loading.breadthFirst⟩

/-- Three files in a cycle: the executable needs `b`, `a` and itself; so does
`a`, and `b` needs libc besides. -/
def cyclicHost : Host :=
  let object (more : BitVec 64) : Sample.Object :=
    { strings := [0x6d006200610000, 0x6f732e6362696c], needed := [4, 2, more, 6] }
  Sample.host [(ascii "m", (object 2).file), (ascii "a", (object 2).file), (ascii "b", (object 8).file)]
    fun _ => none

end DynLoader

end Sloader
