import Sloader.Data.Code
import Sloader.Execute.Stack
import Sloader.Loader.Queue
import Sloader.Relocate.Pass
import Sloader.Tls.Image

namespace Sloader

open Data

/-! Thread-local variables while initialisers run.  `Execute` fills the reserved
space only after all of them have returned. -/

def Event.act? {α : Type} : Event α → Option α
  | .call _ => none
  | .act action => some action

def accesses (events : List (Event Access)) : List Access :=
  events.filterMap Event.act?

namespace DynLoader

def withBytes (loader : DynLoader) (bytes : Bytes) : DynLoader :=
  loader.withMemory { loader.memory with bytes }

/-- Initialisers that load and store bytes, by the address of their code. -/
def runCode (program : Address → Code) (function : Address) (loader : DynLoader) : Traced Stop Access DynLoader :=
  let result := (program function).run loader.memory.bytes
  ⟨result.1, .ok (loader.withBytes result.2)⟩

/-- The accesses explain what has happened to memory, and nothing else has changed. -/
def Acts (loader : DynLoader) (action : Traced Stop (Event Access) DynLoader) : Prop :=
  ∃ after, Follows loader.memory.bytes (accesses action.events) after ∧
    ∀ next, action.outcome = .ok next → next = loader.withBytes after

variable {host : Host} {program : Address → Code} {loader next : DynLoader} {action : Traced Stop (Event Access) DynLoader}
  {rest : DynLoader → Traced Stop (Event Access) DynLoader} {index count entry : Nat} {place : Call} {funs : Address}
  {binary : ELFBinary}

theorem Acts.pure (loader : DynLoader) : Acts loader (pure loader) :=
  ⟨loader.memory.bytes, rfl, fun _ same => (Except.ok.inj same).symm⟩

theorem Acts.stop (loader : DynLoader) (reason : Stop) : Acts loader (.lift (.error reason)) :=
  ⟨loader.memory.bytes, rfl, fun _ ran => nomatch ran⟩

theorem Acts.bind (first : Acts loader action) (second : ∀ next, action.outcome = .ok next → Acts next (rest next)) :
    Acts loader (action >>= rest) := by
  obtain ⟨middle, follows, reaches⟩ := first
  cases ran : action.outcome with
  | error reason =>
      obtain ⟨events, outcome⟩ := @Traced.bind_stopped _ _ _ _ _ rest _ ran
      refine ⟨middle, events ▸ follows, ?_⟩
      intro next returned
      rw [outcome] at returned
      contradiction
  | ok next =>
      obtain ⟨after, followsRest, reachesRest⟩ := second next ran
      obtain rfl := reaches next ran
      refine ⟨after, ?_, ?_⟩
      · rw [Traced.events_bind ran, accesses, List.filterMap_append]
        exact follows_append.mpr ⟨middle, follows, followsRest⟩
      · intro last returned
        rw [Traced.outcome_bind ran] at returned
        exact reachesRest last returned

theorem callInitialiser_acts : Acts loader (callInitialiser (runCode program) place loader) := by
  refine ⟨((program place.function).run loader.memory.bytes).2, ?_, ?_⟩
  · have same : accesses (callInitialiser (runCode program) place loader).events =
        ((program place.function).run loader.memory.bytes).1 := by
      change (List.map Event.act _).filterMap Event.act? = _
      rw [List.filterMap_map]
      exact List.filterMap_some
    rw [same]
    exact Code.run_follows _ _
  · intro next returned
    exact (Except.ok.inj returned).symm

theorem Acts.check (acts : Acts loader action) (condition : Bool) (text : String) :
    Acts loader (.lift (Sloader.check condition text) >>= fun _ => action) := by
  cases condition with
  | true => exact acts
  | false => exact .stop loader (.check text)

theorem callInitArray_acts : Acts loader (callInitArray (runCode program) index funs count entry loader) := by
  induction count generalizing entry loader with
  | zero => exact .pure loader
  | succ count ih =>
      rw [callInitArray]
      split
      · exact .pure loader
      · exact callInitialiser_acts.bind fun next _ => ih

theorem initialise_acts : Acts loader (initialise (runCode program) index loader) := by
  rw [initialise]
  split
  · exact .stop loader _
  · rename_i binary found
    have init : Acts loader (callInit (runCode program) index binary loader) := by
      rw [callInit]
      split
      · exact callInitialiser_acts
      · exact .pure loader
    refine init.bind ?_
    intro next _
    rw [callArray]
    split
    · exact callInitArray_acts.check _ _
    · exact .pure next

theorem initialiseDown_acts : Acts loader (initialiseDown (runCode program) count loader) := by
  induction count generalizing loader with
  | zero => exact .pure loader
  | succ count ih =>
      rw [initialiseDown]
      exact initialise_acts.bind fun next _ => ih

theorem executeCore_outside {stack : List (BitVec 64)} {memory : Memory} {rsp address : Address}
    (bound : 8 * stack.length ≤ 2 ^ 64)
    (outside : ¬ Inside (rsp - BitVec.ofNat 64 (8 * stack.length)) (8 * stack.length) address) :
    (executeCore stack memory rsp).1.bytes address = memory.bytes address := by
  induction stack generalizing memory rsp with
  | nil => rfl
  | cons word rest ih =>
      simp only [List.length_cons, Nat.mul_succ] at bound outside
      have pushed : (pushq (memory, rsp) word).1.bytes address = memory.bytes address := by
        apply Bytes.patch_outside
        simp only [Inside] at outside ⊢
        bv_omega
      refine (@ih (pushq (memory, rsp) word).1 (rsp - 8) (by omega) ?_).trans pushed
      simp only [Inside] at outside ⊢
      bv_omega

theorem loadDependingLibs_tlsOffset {start loaded : DynLoader} {steps : Nat} {path : Path}
    (ran : start.loadDependingLibs host steps path = .ok loaded) : loaded.tlsOffset = start.tlsOffset := by
  refine (Visits.of_loadDependingLibs ran).invariant (fun state => state.tlsOffset = start.tlsOffset) ?_ ?_ rfl
  · intro state name same
    exact same
  · intro state path binary next same emplaced
    obtain ⟨_, _, _, _, rfl⟩ := emplace_spec emplaced
    exact same

end DynLoader

variable {host : Host} {memory after : Memory} {block : TlsBlock} {blocks later : List TlsBlock} {address : Address}

/-- The bytes of the file that the image of a block is copied from. -/
def TlsBlock.InTemplate (block : TlsBlock) (address : Address) : Prop :=
  Inside (block.binary.baseAddr + block.binary.fileTls.pVaddr) block.binary.fileTls.pFilesz.toNat address

theorem TlsBlock.settledByte_congr
    (same : ∀ address, block.InTemplate address → after.bytes address = memory.bytes address) :
    block.settledByte after later address = block.settledByte memory later address := by
  have image : block.image after address = block.image memory address := by
    unfold TlsBlock.image
    split
    · rename_i within
      apply same
      rw [InTemplate, Inside, BitVec.add_comm _ (address - block.start), BitVec.add_sub_cancel]
      exact within
    · rfl
  rw [TlsBlock.settledByte, TlsBlock.settledByte, image]

/-- A load of a thread-local byte sees the last store, or else the initial image;
and so does the program when it starts. -/
structure TlsInPlace (blocks : List TlsBlock) (memory : Memory) (ran : Traced Stop (Event Access) Entry) : Prop where
  loads : ∀ earlier address value rest, accesses ran.events = earlier ++ .load address value :: rest →
    ∀ block ∈ blocks, block.Covers address → value = (lastStore earlier address).getD (block.image memory address)
  entry : ∀ entry, ran.outcome = .ok entry → ∀ block ∈ blocks, ∀ address, block.Covers address →
    entry.loader.memory.bytes address = (lastStore (accesses ran.events) address).getD (block.image memory address)

/-- What initialisers may do so that it makes no difference when the images are
copied: load nothing that the reserved space does not hold already, and end with
what the loop leaves there. -/
structure TlsIndifferent (blocks : List TlsBlock) (memory : Memory) (ran : Traced Stop (Event Access) Entry) :
    Prop where
  loads : ∀ earlier address value rest, accesses ran.events = earlier ++ .load address value :: rest →
    ∀ block ∈ blocks, block.Covers address → lastStore earlier address = none →
      memory.bytes address = block.image memory address
  stores : (∃ entry, ran.outcome = .ok entry) → ∀ earlier block later, blocks = earlier ++ block :: later →
    ∀ address, block.Covers address →
      (lastStore (accesses ran.events) address).getD (block.image memory address) =
        block.settledByte memory later address

theorem tlsInPlace_iff {ran : Traced Stop (Event Access) Entry} {bytes : Bytes}
    (follows : Follows memory.bytes (accesses ran.events) bytes)
    (settles : ∀ entry, ran.outcome = .ok entry → ∀ earlier block later, blocks = earlier ++ block :: later →
      ∀ address, block.Covers address → entry.loader.memory.bytes address = block.settledByte memory later address) :
    TlsInPlace blocks memory ran ↔ TlsIndifferent blocks memory ran := by
  have sees (earlier : List Access) (address : Address) (value : UInt8) (rest : List Access)
      (seen : accesses ran.events = earlier ++ .load address value :: rest) :
      value = (lastStore earlier address).getD (memory.bytes address) := by
    rw [seen] at follows
    exact follows.load
  constructor
  · intro inPlace
    constructor
    · intro earlier address value rest seen block member covers unstored
      have expected := inPlace.loads earlier address value rest seen block member covers
      rw [sees earlier address value rest seen, unstored] at expected
      exact expected
    · intro ⟨entry, entered⟩ earlier block later split address covers
      rw [← settles entry entered earlier block later split address covers]
      exact (inPlace.entry entry entered block (by simp [split]) address covers).symm
  · intro indifferent
    constructor
    · intro earlier address value rest seen block member covers
      rw [sees earlier address value rest seen]
      cases stored : lastStore earlier address with
      | some byte => rfl
      | none => exact indifferent.loads earlier address value rest seen block member covers stored
    · intro entry entered block member address covers
      obtain ⟨earlier, later, split⟩ := List.append_of_mem member
      rw [settles entry entered earlier block later split address covers]
      exact (indifferent.stores ⟨entry, entered⟩ earlier block later split address covers).symm

namespace DynLoader

/-- The byte that the program starts with, when the initialisers have left the
files' own images alone. -/
theorem execute_settles {program : Address → Code} {getauxval : Elf64Xword → Elf64Xword} {args envs : StringVector}
    {rsp : Address} {loader : DynLoader} {entry : Entry} (initial : loader.tlsOffset = 4096)
    (fits : TlsFits host loader.binaries)
    (stack : Apart (rsp - BitVec.ofNat 64 (8 * (stackNum args envs (auxTvs getauxval)).toNat))
      (8 * (stackNum args envs (auxTvs getauxval)).toNat) host.tlsBlock 4096)
    (templates : ∀ address value,
      .store address value ∈ accesses (loader.execute host (runCode program) getauxval args envs rsp).events →
      ∀ block ∈ tlsBlocks (host.tlsBlock + 4096) loader.binaries, ¬ block.InTemplate address)
    (entered : (loader.execute host (runCode program) getauxval args envs rsp).outcome = .ok entry)
    {earlier : List TlsBlock}
    (blocks : tlsBlocks (host.tlsBlock + 4096) loader.binaries = earlier ++ block :: later) (covers : block.Covers address) :
    entry.loader.memory.bytes address = block.settledByte loader.memory later address := by
  obtain ⟨initialised, words, ready, main, initialises, stacked, fills, _, rfl⟩ := execute_steps entered
  rw [execute_events] at templates
  obtain ⟨bytes, follows, reaches⟩ := @initialiseDown_acts program loader loader.binaries.length
  obtain rfl := reaches initialised initialises
  obtain ⟨_, _, rfl⟩ := executeTls_eq_ok.mp fills
  rw [initialStack_eq] at stacked
  cases stacked
  have member : block ∈ tlsBlocks (host.tlsBlock + 4096) loader.binaries := by
    rw [blocks]
    simp
  have length := @stackNum_toNat args envs (auxTvs getauxval)
  -- the stack is not in the reserved space
  have outside : ¬ Inside (rsp - BitVec.ofNat 64 (8 * (stackWords args envs (auxTvs getauxval)).length))
      (8 * (stackWords args envs (auxTvs getauxval)).length) address := by
    rw [← length]
    intro inside
    exact stack address inside (tlsBlocks_position fits.total member covers).2
  have kept (address : Address) (inTemplate : block.InTemplate address) :
      (loader.withBytes bytes).memory.bytes address = loader.memory.bytes address := by
    apply follows.unstored
    intro value stored
    exact templates address value stored block member inTemplate
  refine (executeCore_outside (Nat.le_of_lt stackWords_bound) outside).trans ?_
  have settled := @tlsState_settledByte host (loader.withBytes bytes) loader.binaries block address initial earlier later
    fits blocks covers
  rw [TlsBlock.settledByte_congr kept] at settled
  exact settled

/-- Thread-local variables are as they should be exactly if the initialisers do
not notice when the images are copied. -/
theorem run_tlsInPlace_iff {memory : Memory} {steps : Nat} {mainPath : Path} {loaded loader : DynLoader}
    {program : Address → Code} {getauxval : Elf64Xword → Elf64Xword} {args envs : StringVector} {rsp : Address}
    {ran : Traced Stop (Event Access) Entry}
    (libraries : (fresh memory).loadDependingLibs host steps mainPath = .ok loaded)
    (relocates : loaded.relocate host = .ok loader)
    (runs : (fresh memory).run host (runCode program) getauxval args envs rsp steps mainPath = ran)
    (fits : TlsFits host loader.binaries)
    (stack : Apart (rsp - BitVec.ofNat 64 (8 * (stackNum args envs (auxTvs getauxval)).toNat))
      (8 * (stackNum args envs (auxTvs getauxval)).toNat) host.tlsBlock 4096)
    (templates : ∀ address value, .store address value ∈ accesses ran.events →
      ∀ block ∈ tlsBlocks (host.tlsBlock + 4096) loader.binaries, ¬ block.InTemplate address) :
    TlsInPlace (tlsBlocks (host.tlsBlock + 4096) loader.binaries) loader.memory ran ↔
      TlsIndifferent (tlsBlocks (host.tlsBlock + 4096) loader.binaries) loader.memory ran := by
  rw [run_eq libraries relocates] at runs
  subst runs
  have initial : loader.tlsOffset = 4096 := by
    rw [relocate_tlsOffset relocates, loadDependingLibs_tlsOffset libraries]
    rfl
  obtain ⟨bytes, follows, _⟩ := @initialiseDown_acts program loader loader.binaries.length
  refine @tlsInPlace_iff loader.memory _ _ bytes ?_ ?_
  · rw [execute_events]
    exact follows
  · intro entry entered earlier block later blocks address covers
    exact execute_settles initial fits stack templates entered blocks covers

/-- An executable with eight thread-local bytes `0x11` and a `DT_INIT`. -/
def tlsInitHost : Host :=
  let executable : Sample.Object := { header := [7, 232, 232, 0, 8, 8, 8], data := [0x1111111111111111] }
  Sample.host [(ascii "m", executable.fileWith [12, 240])] fun _ => none

def noStrings : StringVector where
  pointers := []
  nonnull := fun _ member => absurd member List.not_mem_nil
  size := Nat.two_pow_pos 58

def tlsInitRun (code : Code) : Traced Stop (Event Access) Entry :=
  (fresh Sample.memory).run tlsInitHost (runCode fun _ => code) (fun _ => 1) noStrings noStrings 0x7ffc00000000 12
    (ascii "/bin/m")

/-- An initialiser that reads the first byte and sets it, and one that stores what
is the initial value anyway. -/
def settingCode : Code :=
  .load 0x7f0000000ff8 fun _ => .store 0x7f0000000ff8 0x55 .done

def repeatingCode : Code :=
  .store 0x7f0000000ff8 0x11 .done

theorem tlsInit_facts :
    (Sample.startup tlsInitHost (ascii "/bin/m")).toOption.map (fun loader => decide (
      loader.binaries.length = 1 ∧
      (∀ b ∈ loader.binaries, b.hasTls = true ∧ b.fileTls.pFilesz = 8 ∧ b.fileTls.pMemsz = 8 ∧
        b.baseAddr + b.fileTls.pVaddr = 0x14000e8) ∧
      loader.memory.bytes 0x14000e8 = 0x11)) = some true ∧
    accesses (tlsInitRun settingCode).events = [.load 0x7f0000000ff8 0, .store 0x7f0000000ff8 0x55] ∧
    (tlsInitRun settingCode).outcome.toOption.map (fun entry => entry.loader.memory.bytes 0x7f0000000ff8) = some 0x11 ∧
    accesses (tlsInitRun repeatingCode).events = [.store 0x7f0000000ff8 0x11] ∧
    (tlsInitRun repeatingCode).outcome.isOk = true ∧
    (stackNum noStrings noStrings (auxTvs fun _ => 1)).toNat = 81 := by
  decide +kernel

theorem exists_tlsInit :
    ∃ (loaded loader : DynLoader) (block : TlsBlock),
      (fresh Sample.memory).loadDependingLibs tlsInitHost 12 (ascii "/bin/m") = .ok loaded ∧
      loaded.relocate tlsInitHost = .ok loader ∧ TlsFits tlsInitHost loader.binaries ∧
      tlsBlocks (tlsInitHost.tlsBlock + 4096) loader.binaries = [block] ∧ block.Covers 0x7f0000000ff8 ∧
      block.image loader.memory 0x7f0000000ff8 = 0x11 ∧ ¬ block.InTemplate 0x7f0000000ff8 := by
  obtain ⟨loader, started, checked⟩ := Option.map_eq_some_iff.mp tlsInit_facts.1
  obtain ⟨one, headers, byte⟩ := of_decide_eq_true checked
  obtain ⟨loaded, libraries, relocates⟩ := bind_eq_ok.mp (eq_ok_of_toOption started)
  obtain ⟨main, binaries⟩ := List.length_eq_one_iff.mp one
  obtain ⟨tls, filesz, memsz, template⟩ := headers main (by simp [binaries])
  have start : (⟨main, 0x7f0000001000⟩ : TlsBlock).start = 0x7f0000000ff8 := by
    rw [TlsBlock.start, memsz]
    change (0x7f0000001000 - 8 : Address) = 0x7f0000000ff8
    decide
  refine ⟨loaded, loader, ⟨main, 0x7f0000001000⟩, libraries, relocates, ⟨⟨?_, ?_⟩, ?_⟩, ?_, ?_, ?_, ?_⟩
  · intro b member _
    obtain ⟨_, fileszB, memszB, _⟩ := headers b member
    rw [fileszB, memszB]
  · rw [binaries, tlsTotal_singleton tls, memsz]
    decide
  · intro b member _
    obtain ⟨_, fileszB, _, templateB⟩ := headers b member
    rw [fileszB, templateB]
    exact apart_of_starts (by decide) (by decide)
  · rw [binaries, tlsBlocks, if_pos tls, tlsBlocks]
    rfl
  · rw [TlsBlock.Covers, start, memsz]
    decide
  · rw [TlsBlock.image, start, filesz, template]
    exact byte
  · rw [TlsBlock.InTemplate, template, filesz]
    decide

theorem run_tlsInPlace_iff_repeating :
    ∃ (loader : DynLoader) (entry : Entry), (tlsInitRun repeatingCode).outcome = .ok entry ∧
      TlsInPlace (tlsBlocks (tlsInitHost.tlsBlock + 4096) loader.binaries) loader.memory (tlsInitRun repeatingCode) := by
  obtain ⟨loaded, loader, block, libraries, relocates, fits, blocks, _, image, outside⟩ := exists_tlsInit
  obtain ⟨_, _, _, stores, entered, words⟩ := tlsInit_facts
  obtain ⟨entry, entered⟩ := exists_of_isOk entered
  refine ⟨loader, entry, entered, (run_tlsInPlace_iff libraries relocates rfl fits ?_ ?_).mpr ⟨?_, ?_⟩⟩
  · rw [words]
    exact apart_of_starts (by decide) (by decide)
  · intro address value stored other member
    change .store address value ∈ accesses (tlsInitRun repeatingCode).events at stored
    rw [stores, List.mem_singleton] at stored
    rw [blocks, List.mem_singleton] at member
    cases stored
    rw [member]
    exact outside
  · intro earlier address value rest seen
    change accesses (tlsInitRun repeatingCode).events = _ at seen
    have member : Access.load address value ∈ accesses (tlsInitRun repeatingCode).events := by simp [seen]
    simp [stores] at member
  · intro _ earlier other later split address _
    change (lastStore (accesses (tlsInitRun repeatingCode).events) address).getD _ = _
    rw [blocks] at split
    cases earlier with
    | cons first more => simp at split
    | nil =>
        obtain ⟨rfl, rfl⟩ := List.cons.inj split
        rw [stores, lastStore_cons, Access.storedAt]
        change (if 0x7f0000000ff8 = address then some (0x11 : UInt8) else none).getD _ = block.image loader.memory address
        split
        · rename_i here
          rw [← here, image]
          rfl
        · rfl

/-- The initialiser reads zero, and what it sets is gone when the program starts. -/
theorem run_tls_misplaced :
    ∃ (loaded loader : DynLoader) (block : TlsBlock) (entry : Entry),
      (fresh Sample.memory).loadDependingLibs tlsInitHost 12 (ascii "/bin/m") = .ok loaded ∧
      loaded.relocate tlsInitHost = .ok loader ∧
      block ∈ tlsBlocks (tlsInitHost.tlsBlock + 4096) loader.binaries ∧ block.Covers 0x7f0000000ff8 ∧
      block.image loader.memory 0x7f0000000ff8 = 0x11 ∧
      accesses (tlsInitRun settingCode).events = [.load 0x7f0000000ff8 0, .store 0x7f0000000ff8 0x55] ∧
      (tlsInitRun settingCode).outcome = .ok entry ∧ entry.loader.memory.bytes 0x7f0000000ff8 = 0x11 ∧
      ¬ TlsInPlace (tlsBlocks (tlsInitHost.tlsBlock + 4096) loader.binaries) loader.memory (tlsInitRun settingCode) := by
  obtain ⟨loaded, loader, block, libraries, relocates, _, blocks, covers, image, _⟩ := exists_tlsInit
  obtain ⟨_, seen, left, _⟩ := tlsInit_facts
  obtain ⟨entry, entered, last⟩ := Option.map_eq_some_iff.mp left
  have member : block ∈ tlsBlocks (tlsInitHost.tlsBlock + 4096) loader.binaries := by
    rw [blocks]
    exact List.mem_singleton_self block
  refine ⟨loaded, loader, block, entry, libraries, relocates, member, covers, image, seen, eq_ok_of_toOption entered,
    last, ?_⟩
  intro inPlace
  have read := inPlace.loads [] _ _ _ seen block member covers
  rw [image] at read
  exact absurd read (by decide)

end DynLoader

end Sloader
