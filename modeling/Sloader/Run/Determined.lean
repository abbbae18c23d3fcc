import Sloader.Loader.SelfContained
import Sloader.Run.History
import Sloader.Run.Paths

namespace Sloader

open Data

/-! What the link map depends on.

The program changes memory between the calls of `sloader_dlopen`, and `Relocate`
and the TLS initialisation change it too.  The binaries, their places and the
lines of the map file depend on none of this: two runs that open the same names
in the same order end with the same ones (`Opening.determined`).  Two calls run in
lockstep, and what `Load` parses it reads from segments that it has just written. -/

namespace ELFBinary

/-- What is parsed of the binary is in its segments, and those are in order. -/
structure Faithful (binary : ELFBinary) : Prop where
  fits : binary.SegmentsFit
  contained : binary.SelfContained

variable {host : Host} {memory : Memory} {binary before after : ELFBinary} {first second nextFirst nextSecond : Mapping}
  {ph : Elf64Phdr}

theorem SameImage.symm (same : SameImage before after) : SameImage after before :=
  ⟨same.path.symm, same.file.symm, same.ehdr.symm, same.filePhdrs.symm, same.fileDynamic.symm, same.hasTls.symm,
    same.fileTls.symm, same.baseAddr.symm, same.endAddr.symm⟩

theorem SameImage.segmentsFit (same : SameImage before after) (fits : before.SegmentsFit) : after.SegmentsFit := by
  intro ph member wanted
  rw [same.filePhdrs] at member
  rw [same.file, same.baseAddr]
  exact fits ph member wanted

theorem SameImage.holdsSegments (same : SameImage before after) (holds : before.HoldsSegments memory) :
    after.HoldsSegments memory := by
  intro ph member wanted
  rw [same.filePhdrs] at member
  rw [HoldsSegment, MapsSegment, same.file, same.baseAddr]
  exact holds ph member wanted

/-- What `Load` keeps while it maps the segments, memory apart. -/
structure SameProgress (first second : Mapping) : Prop where
  endAddr : second.endAddr = first.endAddr
  mapFile : second.mapFile = first.mapFile

theorem SameProgress.loadSegment (same : SameProgress first second)
    (ranFirst : binary.loadSegment host first ph = .ok nextFirst)
    (ranSecond : binary.loadSegment host second ph = .ok nextSecond) : SameProgress nextFirst nextSecond := by
  obtain ⟨skipped, rfl⟩ | ⟨wanted, _, _, endFirst, linesFirst⟩ := loadSegment_cases ranFirst
  · obtain ⟨_, rfl⟩ | ⟨wanted, _⟩ := loadSegment_cases ranSecond
    · exact same
    · exact absurd wanted skipped
  · obtain ⟨skipped, _⟩ | ⟨_, _, _, endSecond, linesSecond⟩ := loadSegment_cases ranSecond
    · exact absurd wanted skipped
    · exact ⟨endSecond.trans endFirst.symm, by rw [linesSecond, linesFirst, same.mapFile]⟩

theorem loadSegments_progress {phdrs : List Elf64Phdr} {left right : Memory} {endAddr : Elf64Addr}
    (ranFirst : phdrs.foldlM (binary.loadSegment host) { memory := left, endAddr, mapFile := [] } = .ok nextFirst)
    (ranSecond : phdrs.foldlM (binary.loadSegment host) { memory := right, endAddr, mapFile := [] } = .ok nextSecond) :
    SameProgress nextFirst nextSecond := by
  have start : SameProgress { memory := left, endAddr, mapFile := [] } { memory := right, endAddr, mapFile := [] } :=
    ⟨rfl, rfl⟩
  refine foldlM_lockstep SameProgress ?_ start ranFirst ranSecond
  intro first second ph nextFirst nextSecond kept stepFirst stepSecond
  exact kept.loadSegment stepFirst stepSecond

end ELFBinary

namespace DynLoader

/-- The members that make up the link map. -/
structure SameLinks (left right : DynLoader) : Prop where
  binaries : right.binaries = left.binaries
  nextBaseAddr : right.nextBaseAddr = left.nextBaseAddr
  loaded : right.loaded = left.loaded
  relocated : right.relocated = left.relocated
  mapFile : right.mapFile = left.mapFile

variable {host : Host} {mainPath path : Path} {left right nextLeft nextRight loader next : DynLoader}
  {binary other : ELFBinary} {request : Request} {queue restLeft restRight : List Request}
  {steps stepsLeft stepsRight : Nat} {filename : Option CString} {handle handleLeft handleRight : Address}

theorem fresh_links (memory other : Memory) : SameLinks (fresh memory) (fresh other) :=
  ⟨rfl, rfl, rfl, rfl, rfl⟩

theorem SameLinks.keep (same : SameLinks left right) (keptLeft : SameBookkeeping left nextLeft)
    (keptRight : SameBookkeeping right nextRight) : SameLinks nextLeft nextRight where
  binaries := by rw [keptRight.binaries, same.binaries, keptLeft.binaries]
  nextBaseAddr := by rw [keptRight.nextBaseAddr, same.nextBaseAddr, keptLeft.nextBaseAddr]
  loaded := by rw [keptRight.loaded, same.loaded, keptLeft.loaded]
  relocated := by rw [keptRight.relocated, same.relocated, keptLeft.relocated]
  mapFile := by rw [keptRight.mapFile, same.mapFile, keptLeft.mapFile]

theorem SameLinks.insertLoaded (same : SameLinks left right) (name : CString) :
    SameLinks (left.insertLoaded name) (right.insertLoaded name) :=
  ⟨same.binaries, same.nextBaseAddr, congrArg (List.cons name) same.loaded, same.relocated, same.mapFile⟩

theorem SameLinks.emplace (sound : host.MmapSound) (same : SameLinks left right)
    (ranLeft : left.emplace host path = .ok (binary, nextLeft))
    (ranRight : right.emplace host path = .ok (other, nextRight)) (faithful : binary.Faithful) :
    other = binary ∧ SameLinks nextLeft nextRight := by
  obtain ⟨_, holdsLeft, _⟩ := emplace_segments sound ranLeft faithful.fits
  obtain ⟨opened, mapLeft, constructed, loadedLeft, resultLeft⟩ := emplace_spec ranLeft
  obtain ⟨openedRight, mapRight, constructedRight, loadedRight, resultRight⟩ := emplace_spec ranRight
  obtain rfl : opened = openedRight := Except.ok.inj (constructed.symm.trans constructedRight)
  rw [same.nextBaseAddr] at loadedRight
  obtain ⟨segmentsLeft, parsedLeft⟩ := ELFBinary.load_steps loadedLeft
  obtain ⟨segmentsRight, parsedRight⟩ := ELFBinary.load_steps loadedRight
  have progress : ELFBinary.SameProgress mapLeft mapRight :=
    ELFBinary.loadSegments_progress segmentsLeft segmentsRight
  rw [progress.endAddr] at parsedRight
  have image : ELFBinary.SameImage binary other :=
    (ELFBinary.parseDynamic_sameImage parsedLeft).symm.trans (ELFBinary.parseDynamic_sameImage parsedRight)
  obtain ⟨_, holdsRight, _⟩ := emplace_segments sound ranRight (image.segmentsFit faithful.fits)
  rw [resultLeft] at holdsLeft
  rw [resultRight] at holdsRight
  have parsed := faithful.contained.parse parsedLeft holdsLeft (image.symm.holdsSegments holdsRight)
  obtain rfl : binary = other := Except.ok.inj (parsed.symm.trans parsedRight)
  refine ⟨rfl, ?_⟩
  rw [resultLeft, resultRight]
  constructor
  · exact congrArg (· ++ [binary]) same.binaries
  · rfl
  · exact same.loaded
  · exact same.relocated
  · change right.mapFile ++ mapRight.mapFile = left.mapFile ++ mapLeft.mapFile
    rw [same.mapFile, progress.mapFile]

theorem SameLinks.popRequest (sound : host.MmapSound) (same : SameLinks left right)
    (ranLeft : left.popRequest host request queue = .ok (nextLeft, restLeft))
    (ranRight : right.popRequest host request queue = .ok (nextRight, restRight))
    (faithful : ∀ binary ∈ nextLeft.binaries, binary.Faithful) :
    restRight = restLeft ∧ SameLinks nextLeft nextRight := by
  have casesRight := popRequest_cases ranRight
  rw [same.loaded] at casesRight
  obtain ⟨known, rfl, rfl⟩ | ⟨unknown, skipped, rfl, rfl⟩ | ⟨unknown, wanted, path, binary, found, emplaced, rfl⟩ :=
    popRequest_cases ranLeft
  · obtain ⟨_, rfl, rfl⟩ | ⟨unknown, _⟩ | ⟨unknown, _⟩ := casesRight
    · exact ⟨rfl, same⟩
    · exact absurd known unknown
    · exact absurd known unknown
  · obtain ⟨known, _⟩ | ⟨_, _, rfl, rfl⟩ | ⟨_, wanted, _⟩ := casesRight
    · exact absurd known unknown
    · exact ⟨rfl, same.insertLoaded request.libraryName⟩
    · exact Bool.noConfusion (skipped.symm.trans wanted)
  · obtain ⟨known, _⟩ | ⟨_, skipped, _⟩ | ⟨_, _, otherPath, other, foundRight, emplacedRight, rfl⟩ := casesRight
    · exact absurd known unknown
    · exact Bool.noConfusion (skipped.symm.trans wanted)
    · obtain rfl : path = otherPath := Except.ok.inj (found.symm.trans foundRight)
      have trusted : binary.Faithful := faithful binary ((mem_emplace emplaced).mpr (.inr rfl))
      obtain ⟨rfl, links⟩ := (same.insertLoaded request.libraryName).emplace sound emplaced emplacedRight trusted
      exact ⟨rfl, links⟩

theorem drainQueue_nil (ran : drainQueue host steps loader [] = .ok next) : next = loader := by
  cases steps <;> exact (Except.ok.inj ran).symm

theorem drainQueue_cons (ran : drainQueue host steps loader (request :: queue) = .ok next) :
    ∃ remaining turned rest, loader.popRequest host request queue = .ok (turned, rest) ∧
      drainQueue host remaining turned rest = .ok next := by
  cases steps with
  | zero => contradiction
  | succ remaining =>
      simp only [drainQueue, bind_eq_ok] at ran
      obtain ⟨⟨turned, rest⟩, popped, drained⟩ := ran
      exact ⟨remaining, turned, rest, popped, drained⟩

/-- The two queues stay the same, so that neither bound on the turns matters. -/
theorem SameLinks.drainQueue (sound : host.MmapSound) (same : SameLinks left right)
    (ranLeft : drainQueue host stepsLeft left queue = .ok nextLeft)
    (ranRight : drainQueue host stepsRight right queue = .ok nextRight)
    (faithful : ∀ binary ∈ nextLeft.binaries, binary.Faithful) : SameLinks nextLeft nextRight := by
  induction stepsLeft generalizing left right queue stepsRight with
  | zero =>
      cases queue with
      | nil =>
          rw [drainQueue_nil ranLeft, drainQueue_nil ranRight]
          exact same
      | cons request queue => contradiction
  | succ stepsLeft ih =>
      cases queue with
      | nil =>
          rw [drainQueue_nil ranLeft, drainQueue_nil ranRight]
          exact same
      | cons request queue =>
          simp only [DynLoader.drainQueue, bind_eq_ok] at ranLeft
          obtain ⟨⟨turnedLeft, rest⟩, poppedLeft, drainedLeft⟩ := ranLeft
          obtain ⟨stepsRight, turnedRight, restRight, poppedRight, drainedRight⟩ := drainQueue_cons ranRight
          obtain ⟨more, binaries⟩ := drainQueue_append drainedLeft
          have trusted : ∀ binary ∈ turnedLeft.binaries, binary.Faithful := by
            intro binary member
            apply faithful
            rw [binaries]
            exact List.mem_append_left more member
          obtain ⟨rfl, links⟩ := same.popRequest sound poppedLeft poppedRight trusted
          exact ih links drainedLeft drainedRight

theorem SameLinks.loadDependingLibs (sound : host.MmapSound) (same : SameLinks left right)
    (ranLeft : left.loadDependingLibs host stepsLeft path = .ok nextLeft)
    (ranRight : right.loadDependingLibs host stepsRight path = .ok nextRight)
    (faithful : ∀ binary ∈ nextLeft.binaries, binary.Faithful) : SameLinks nextLeft nextRight := by
  simp only [DynLoader.loadDependingLibs, bind_eq_ok] at ranLeft ranRight
  obtain ⟨⟨rootedLeft, queue⟩, rootLeft, drainedLeft⟩ := ranLeft
  obtain ⟨⟨rootedRight, _⟩, rootRight, drainedRight⟩ := ranRight
  obtain ⟨binary, emplacedLeft, addedLeft, rfl, rfl⟩ := loadRoot_spec rootLeft
  obtain ⟨other, emplacedRight, addedRight, rfl, rfl⟩ := loadRoot_spec rootRight
  obtain ⟨more, binaries⟩ := drainQueue_append drainedLeft
  have trusted : binary.Faithful := by
    apply faithful
    rw [binaries]
    exact List.mem_append_left more ((mem_emplace addedLeft).mpr (.inr rfl))
  obtain ⟨rfl, links⟩ := same.emplace sound addedLeft addedRight trusted
  exact (links.insertLoaded (Sloader.filename path)).drainQueue sound drainedLeft drainedRight faithful

theorem SameLinks.relocate (same : SameLinks left right) (ranLeft : left.relocate host = .ok nextLeft)
    (ranRight : right.relocate host = .ok nextRight) : SameLinks nextLeft nextRight := by
  obtain ⟨_, _, resultLeft⟩ := relocate_pass ranLeft
  obtain ⟨_, _, resultRight⟩ := relocate_pass ranRight
  rw [resultLeft, resultRight]
  refine ⟨same.binaries, same.nextBaseAddr, same.loaded, ?_, same.mapFile⟩
  change marked right.relocated right.binaries.zipIdx = marked left.relocated left.binaries.zipIdx
  rw [same.relocated, same.binaries]

theorem SameLinks.sloaderDlopen (sound : host.MmapSound) (same : SameLinks left right)
    (ranLeft : left.sloaderDlopen host stepsLeft filename = .ok (handleLeft, nextLeft))
    (ranRight : right.sloaderDlopen host stepsRight filename = .ok (handleRight, nextRight))
    (faithful : ∀ binary ∈ nextLeft.binaries, binary.Faithful) :
    handleRight = handleLeft ∧ SameLinks nextLeft nextRight := by
  cases filename with
  | none =>
      cases ranLeft
      cases ranRight
      exact ⟨rfl, same⟩
  | some filename =>
      cases wanted : isSkipped filename with
      | true =>
          simp only [DynLoader.sloaderDlopen, wanted, if_true, Except.ok.injEq, Prod.mk.injEq] at ranLeft ranRight
          obtain ⟨rfl, rfl⟩ := ranLeft
          obtain ⟨rfl, rfl⟩ := ranRight
          exact ⟨rfl, same⟩
      | false =>
          obtain ⟨path, loadedLeft, found, loadsLeft, relocatesLeft, rfl⟩ := sloaderDlopen_steps wanted ranLeft
          obtain ⟨otherPath, loadedRight, foundRight, loadsRight, relocatesRight, rfl⟩ :=
            sloaderDlopen_steps wanted ranRight
          obtain rfl : path = otherPath := Except.ok.inj (found.symm.trans foundRight)
          rw [relocate_binaries relocatesLeft] at faithful
          exact ⟨rfl, (same.loadDependingLibs sound loadsLeft loadsRight faithful).relocate relocatesLeft relocatesRight⟩

/-- The states of the runs in which `sloader_dlopen` has been called for these names. -/
inductive Opening (host : Host) (mainPath : Path) : List (Option CString) → DynLoader → Prop where
  | startup {memory : Memory} {steps : Nat} {loaded relocated : DynLoader}
      (libraries : (fresh memory).loadDependingLibs host steps mainPath = .ok loaded)
      (ran : loaded.relocate host = .ok relocated) : Opening host mainPath [] relocated
  | program {names : List (Option CString)} {loader : DynLoader} (opening : Opening host mainPath names loader)
      (memory : Memory) : Opening host mainPath names (loader.withMemory memory)
  | tls {names : List (Option CString)} {loader next : DynLoader} (opening : Opening host mainPath names loader)
      (ran : loader.executeTls host = .ok next) : Opening host mainPath names next
  | dlopen {names : List (Option CString)} {loader next : DynLoader} {steps : Nat} {filename : Option CString}
      {handle : Address} (opening : Opening host mainPath names loader)
      (ran : loader.sloaderDlopen host steps filename = .ok (handle, next)) :
      Opening host mainPath (names ++ [filename]) next

variable {names : List (Option CString)}

theorem run_iff_opening : Run host mainPath loader ↔ ∃ names, Opening host mainPath names loader := by
  constructor
  · intro run
    induction run with
    | startup libraries ran => exact ⟨[], .startup libraries ran⟩
    | program _ memory ih =>
        obtain ⟨names, opening⟩ := ih
        exact ⟨names, opening.program memory⟩
    | tls _ ran ih =>
        obtain ⟨names, opening⟩ := ih
        exact ⟨names, opening.tls ran⟩
    | @dlopen _ _ _ filename _ _ ran ih =>
        obtain ⟨names, opening⟩ := ih
        exact ⟨names ++ [filename], opening.dlopen ran⟩
  · intro ⟨names, opening⟩
    induction opening with
    | startup libraries ran => exact .startup libraries ran
    | program _ memory ih => exact ih.program memory
    | tls _ ran ih => exact ih.tls ran
    | dlopen _ ran ih => exact ih.dlopen ran

/-- Since the last call, or since the start, only memory and the TLS offset have changed. -/
theorem Opening.latest (opening : Opening host mainPath names loader) :
    (names = [] ∧ ∃ memory steps loaded relocated,
      (fresh memory).loadDependingLibs host steps mainPath = .ok loaded ∧ loaded.relocate host = .ok relocated ∧
        SameBookkeeping relocated loader) ∨
    ∃ earlier filename before steps handle after, names = earlier ++ [filename] ∧ Opening host mainPath earlier before ∧
      before.sloaderDlopen host steps filename = .ok (handle, after) ∧ SameBookkeeping after loader := by
  induction opening with
  | startup libraries ran => exact .inl ⟨rfl, _, _, _, _, libraries, ran, .refl _⟩
  | program _ memory ih =>
      obtain ⟨rfl, _, _, _, _, libraries, ran, kept⟩ | ⟨_, _, _, _, _, _, same, before, ran, kept⟩ := ih
      · exact .inl ⟨rfl, _, _, _, _, libraries, ran, kept.trans (withMemory_bookkeeping _ memory)⟩
      · exact .inr ⟨_, _, _, _, _, _, same, before, ran, kept.trans (withMemory_bookkeeping _ memory)⟩
  | tls _ tls ih =>
      obtain ⟨rfl, _, _, _, _, libraries, ran, kept⟩ | ⟨_, _, _, _, _, _, same, before, ran, kept⟩ := ih
      · exact .inl ⟨rfl, _, _, _, _, libraries, ran, kept.trans (executeTls_bookkeeping tls)⟩
      · exact .inr ⟨_, _, _, _, _, _, same, before, ran, kept.trans (executeTls_bookkeeping tls)⟩
  | dlopen before ran => exact .inr ⟨_, _, _, _, _, _, rfl, before, ran, .refl _⟩

theorem sloaderDlopen_append (ran : loader.sloaderDlopen host steps filename = .ok (handle, next)) :
    ∃ more, next.binaries = loader.binaries ++ more := by
  obtain rfl | ⟨path, loaded, loads, relocates⟩ := sloaderDlopen_cases ran
  · exact ⟨[], (List.append_nil _).symm⟩
  · obtain ⟨more, binaries, _⟩ := loadDependingLibs_history loads
    exact ⟨more, (relocate_binaries relocates).trans binaries⟩

/-- Two runs that open the same names in the same order have loaded the same
binaries at the same places, whatever the program does in between, what memory holds
at the start and how symbols were bound, if the binaries are parsed from their
segments. -/
theorem Opening.determined (sound : host.MmapSound) (openingLeft : Opening host mainPath names left)
    (openingRight : Opening host mainPath names right) (faithful : ∀ binary ∈ left.binaries, binary.Faithful) :
    SameLinks left right := by
  induction openingLeft generalizing right with
  | startup libraries ran =>
      obtain ⟨_, _, _, _, _, others, ranOther, kept⟩ | ⟨_, _, _, _, _, _, same, _⟩ := openingRight.latest
      · rw [relocate_binaries ran] at faithful
        have loaded := (fresh_links _ _).loadDependingLibs sound libraries others faithful
        exact (loaded.relocate ran ranOther).keep (.refl _) kept
      · simp at same
  | program _ memory ih => exact (ih openingRight faithful).keep (withMemory_bookkeeping _ memory) (.refl right)
  | tls _ ran ih =>
      have kept := executeTls_bookkeeping ran
      rw [kept.binaries] at faithful
      exact (ih openingRight faithful).keep kept (.refl right)
  | dlopen _ ran ih =>
      obtain ⟨same, _⟩ | ⟨earlier, filename, before, _, _, _, same, opened, ranRight, kept⟩ := openingRight.latest
      · simp at same
      · obtain ⟨rfl, isLast⟩ := List.append_inj' same rfl
        cases isLast
        obtain ⟨more, binaries⟩ := sloaderDlopen_append ran
        have links := ih opened fun binary member => faithful binary (binaries ▸ List.mem_append_left more member)
        exact (links.sloaderDlopen sound ran ranRight faithful).2.keep (.refl _) kept

def openedFrom (memory : Memory) : Except Stop DynLoader := do
  let loaded ← (fresh memory).loadDependingLibs dlopenHost 12 (ascii "/bin/m")
  let relocated ← loaded.relocate dlopenHost
  let (_, opened) ← relocated.sloaderDlopen dlopenHost 12 (some (ascii "a"))
  return opened

/-- Memory that is not empty when the program starts. -/
def filled : Memory where
  bytes _ := 0xff
  ranges := []

theorem openedFrom_opening {memory : Memory} (ran : openedFrom memory = .ok loader) :
    Opening dlopenHost (ascii "/bin/m") [some (ascii "a")] loader := by
  simp only [openedFrom, bind_eq_ok, pure_eq_ok] at ran
  obtain ⟨loaded, loads, relocated, relocates, ⟨_, opened⟩, opens, rfl⟩ := ran
  exact .dlopen (.startup loads relocates) opens

theorem openedFrom_facts :
    (openedFrom Sample.memory).toOption.map (fun loader => decide (
      loader.memory.bytes 0 = 0 ∧ loader.binaries.length = 2 ∧ ∀ binary ∈ loader.binaries,
        binary.coversFootprint = true ∧ ∀ ph ∈ binary.filePhdrs, ph.pType = .load →
          ph.pFilesz.toNat ≤ ph.pMemsz.toNat ∧ ph.pOffset.toNat + ph.pFilesz.toNat ≤ binary.file.length ∧
          binary.file.length < 2 ^ 64 ∧
          ph.pVaddr.toNat + ph.pMemsz.toNat + binary.baseAddr.toNat + 0xfff < 2 ^ 64)) = some true := by
  decide +kernel

theorem openedFrom_filled :
    (openedFrom filled).toOption.map (fun loader => decide (loader.memory.bytes 0 = 0xff)) = some true := by
  decide +kernel

theorem Opening.determined_dlopenHost :
    ∃ left right, Opening dlopenHost (ascii "/bin/m") [some (ascii "a")] left ∧
      Opening dlopenHost (ascii "/bin/m") [some (ascii "a")] right ∧
      left.memory.bytes 0 = 0 ∧ right.memory.bytes 0 = 0xff ∧ left.binaries.length = 2 ∧ SameLinks left right := by
  obtain ⟨left, ranLeft, facts⟩ := Option.map_eq_some_iff.mp openedFrom_facts
  obtain ⟨right, ranRight, full⟩ := Option.map_eq_some_iff.mp openedFrom_filled
  obtain ⟨empty, two, faithful⟩ := of_decide_eq_true facts
  have openingLeft := openedFrom_opening (eq_ok_of_toOption ranLeft)
  have openingRight := openedFrom_opening (eq_ok_of_toOption ranRight)
  refine ⟨left, right, openingLeft, openingRight, empty, of_decide_eq_true full, two, ?_⟩
  apply Opening.determined (Sample.host_mmapSound _ _) openingLeft openingRight
  intro binary member
  obtain ⟨covered, sizes⟩ := faithful binary member
  refine ⟨?_, .of_coversFootprint covered⟩
  intro ph inHeaders wanted
  obtain ⟨smaller, contents, small, pages⟩ := sizes ph inHeaders wanted
  exact ⟨smaller, contents, small, pages⟩

end DynLoader

end Sloader
