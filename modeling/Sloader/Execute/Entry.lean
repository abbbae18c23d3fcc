import Sloader.Execute.Order
import Sloader.Execute.Stack
import Sloader.Execute.ThreadLocal
import Sloader.Run.Image
import Sloader.Run.LinkMap

namespace Sloader

open Data

/-! What a program finds when it gets control: the whole of `DynLoader::Run`, from
the file of the executable to the jump to its entry. -/

namespace ELFBinary

/-- The binary is the file behind its path, with the headers at the start of it. -/
structure FromFile (host : Host) (binary : ELFBinary) : Prop where
  file : host.openFile binary.path = some binary.file
  ehdr : binary.ehdr = Elf64Ehdr.read (fileBytes binary.file) 0
  filePhdrs : binary.filePhdrs = readArray (Elf64Phdr.read (fileBytes binary.file)) binary.ehdr.ePhoff
    binary.ehdr.ePhentsize.toNat binary.ehdr.ePhnum.toNat

variable {host : Host} {path : Path} {binary : ELFBinary}

theorem construct_fromFile (opened : construct host path = .ok binary) : binary.FromFile host := by
  obtain ⟨samePath, file, _⟩ := construct_spec opened
  unfold construct at opened
  split at opened
  · contradiction
  · rename_i file _
    simp only [bind_eq_ok, pure_eq_ok] at opened
    obtain ⟨_, _, _, _, rfl⟩ := opened
    refine ⟨?_, ?_, ?_⟩
    · rw [samePath]
      exact file
    · rw [(foldl_readHeader_filePhdrs _ _).2, (foldl_readHeader _ _).2.1]
    · rw [(foldl_readHeader_filePhdrs _ _).1, (foldl_readHeader_filePhdrs _ _).2, (foldl_readHeader _ _).2.1]
      rfl

end ELFBinary

namespace DynLoader

/-- What an initialiser may do: it stores to these addresses, it maps pages, and it
calls `sloader_dlopen`. -/
inductive Action (host : Host) (stores : Set Address) : DynLoader → DynLoader → Prop where
  | store {loader : DynLoader} (memory : Memory) (kept : loader.memory.ExtendsOutside stores memory) :
      Action host stores loader (loader.withMemory memory)
  | dlopen {loader next : DynLoader} {steps : Nat} {filename : Option CString} {handle : Address}
      (ran : loader.sloaderDlopen host steps filename = .ok (handle, next)) : Action host stores loader next

def Behaves {α : Type} (host : Host) (stores : Set Address) (call : Address → DynLoader → Traced Stop α DynLoader) :
    Prop :=
  ∀ address loader next, (call address loader).outcome = .ok next →
    Relation.ReflTransGen (Action host stores) loader next

/-- The part of the stack that `ExecuteCore` pushes `count` words to. -/
def stackArea (rsp : Address) (count : Nat) : Set Address :=
  { address | Inside (rsp - BitVec.ofNat 64 (8 * count)) (8 * count) address }

variable {α : Type} {host : Host} {call : Address → DynLoader → Traced Stop α DynLoader} {mainPath : Path}
  {stores touched : Set Address} {loader next : DynLoader} {binary : ELFBinary} {funs : Elf64Addr}
  {index count place : Nat}

section Related

variable {Related : DynLoader → DynLoader → Prop} (refl : ∀ loader, Related loader loader)
  (trans : ∀ first second third, Related first second → Related second third → Related first third)
  (each : ∀ address loader next, (call address loader).outcome = .ok next → Related loader next)

include refl trans each

theorem callInitArray_related (ran : (callInitArray call place funs count index loader).outcome = .ok next) :
    Related loader next := by
  induction count generalizing index loader with
  | zero =>
      cases ran
      exact refl _
  | succ count ih =>
      rw [callInitArray] at ran
      split at ran
      · cases ran
        exact refl _
      · obtain ⟨middle, first, rest⟩ := Traced.outcome_bind_ok.mp ran
        have called : Related loader middle := each _ _ _ first
        exact trans _ _ _ called (ih rest)

theorem initialise_related (ran : (initialise call index loader).outcome = .ok next) : Related loader next := by
  rw [initialise] at ran
  split at ran
  · contradiction
  · rename_i binary _
    obtain ⟨middle, first, rest⟩ := Traced.outcome_bind_ok.mp ran
    have init : Related loader middle := by
      rw [callInit] at first
      split at first
      · exact each _ _ _ first
      · cases first
        exact refl _
    refine trans _ _ _ init ?_
    rw [callArray] at rest
    split at rest
    · obtain ⟨_, _, called⟩ := Traced.outcome_bind_ok.mp rest
      exact callInitArray_related refl trans each called
    · cases rest
      exact refl _

/-- What relates the loader before and after every call relates it before and after
all of them. -/
theorem initialiseDown_related (ran : (initialiseDown call count loader).outcome = .ok next) : Related loader next := by
  induction count generalizing loader with
  | zero =>
      cases ran
      exact refl _
  | succ count ih =>
      obtain ⟨middle, first, rest⟩ := Traced.outcome_bind_ok.mp ran
      exact trans _ _ _ (initialise_related refl trans each first) (ih rest)

end Related

/-- Code behaves if it stores to these addresses only. -/
theorem runCode_behaves {program : Address → Code} (within : ∀ address, (program address).StoresWithin stores) :
    Behaves host stores (runCode program) := by
  intro address loader next ran
  cases ran
  refine .single (.store _ ?_)
  intro other mapped
  exact ⟨mapped, fun outside => Code.run_outside (within address) outside⟩

theorem Behaves.runInitialisers (behaves : Behaves host stores call)
    (ran : (runInitialisers call loader).outcome = .ok next) :
    Relation.ReflTransGen (Action host stores) loader next :=
  initialiseDown_related (fun _ => .refl) (fun _ _ _ => .trans) behaves ran

theorem sloaderDlopen_tlsOffset {steps : Nat} {filename : Option CString} {handle : Address}
    (ran : loader.sloaderDlopen host steps filename = .ok (handle, next)) : next.tlsOffset = loader.tlsOffset := by
  obtain rfl | ⟨path, loaded, loads, relocates⟩ := sloaderDlopen_cases ran
  · rfl
  · exact (relocate_tlsOffset relocates).trans (loadDependingLibs_tlsOffset loads)

/-- A state of a run whose binaries have their images, if their headers keep their promises. -/
structure Standing (host : Host) (mainPath : Path) (touched : Set Address) (loader : DynLoader) : Prop where
  run : Run host mainPath loader
  imaged : (∀ binary ∈ loader.binaries, binary.InOrder) → loader.Imaged host touched

theorem Standing.program (standing : Standing host mainPath touched loader) {memory : Memory}
    (kept : loader.memory.ExtendsOutside stores memory) :
    Standing host mainPath (touched ∪ stores) (loader.withMemory memory) :=
  ⟨standing.run.program memory, fun inOrder =>
    (standing.imaged inOrder).extends (withMemory_bookkeeping loader memory) kept⟩

theorem Standing.acts (standing : Standing host mainPath stores loader) (sound : host.MmapSound)
    (acts : Relation.ReflTransGen (Action host stores) loader next) :
    Standing host mainPath stores next ∧ next.tlsOffset = loader.tlsOffset := by
  induction acts with
  | refl => exact ⟨standing, rfl⟩
  | tail _ action ih =>
      obtain ⟨reached, offset⟩ := ih
      cases action with
      | store memory kept =>
          have stored := reached.program kept
          rw [Set.union_self] at stored
          exact ⟨stored, offset⟩
      | dlopen ran =>
          refine ⟨⟨reached.run.dlopen ran, ?_⟩, (sloaderDlopen_tlsOffset ran).trans offset⟩
          intro inOrder
          have earlier := reached.imaged fun binary member => inOrder binary (sloaderDlopen_binaries ran member)
          exact earlier.dlopen sound reached.run.history ran inOrder

theorem executeCore_ranges (stack : List (BitVec 64)) (memory : Memory) (rsp : Address) :
    (executeCore stack memory rsp).1.ranges = memory.ranges := by
  induction stack generalizing memory rsp with
  | nil => rfl
  | cons word rest ih => exact ih _ _

theorem executeCore_extends {stack : List (BitVec 64)} {memory : Memory} {rsp : Address}
    (bound : 8 * stack.length ≤ 2 ^ 64) :
    memory.ExtendsOutside (stackArea rsp stack.length) (executeCore stack memory rsp).1 := by
  intro address mapped
  refine ⟨?_, fun outside => executeCore_outside bound outside⟩
  rw [Memory.mapped, executeCore_ranges]
  exact mapped

/-- Every binary has the headers of its file, and the first is where a fresh loader
puts a shared object, or at zero. -/
structure Founded (host : Host) (loader : DynLoader) : Prop where
  headers : ∀ binary ∈ loader.binaries, binary.FromFile host
  empty : loader.binaries = [] → loader.nextBaseAddr = 0x1400000
  place : ∀ main, loader.binaries[0]? = some main → main.baseAddr = if main.ehdr.eType = .dyn then 0x1400000 else 0

theorem Founded.of_bookkeeping (founded : Founded host loader) (binaries : next.binaries = loader.binaries)
    (base : next.nextBaseAddr = loader.nextBaseAddr) : Founded host next := by
  obtain ⟨headers, empty, place⟩ := founded
  rw [← binaries] at headers empty place
  rw [← base] at empty
  exact ⟨headers, empty, place⟩

theorem Founded.emplace {path : Path} (founded : Founded host loader)
    (ran : loader.emplace host path = .ok (binary, next)) : Founded host next := by
  have binaries := emplace_binaries ran
  obtain ⟨opened, mapping, constructed, loaded, _⟩ := emplace_spec ran
  have image := ELFBinary.load_sameImage loaded
  have ehdr : binary.ehdr = opened.ehdr := image.ehdr
  have base : binary.baseAddr = if binary.ehdr.eType = .dyn then loader.nextBaseAddr else 0 := by
    rw [ehdr]
    exact image.baseAddr
  have headers : binary.FromFile host := by
    have read := ELFBinary.construct_fromFile constructed
    have path : binary.path = opened.path := image.path
    have file : binary.file = opened.file := image.file
    have filePhdrs : binary.filePhdrs = opened.filePhdrs := image.filePhdrs
    refine ⟨?_, ?_, ?_⟩
    · rw [path, file]
      exact read.file
    · rw [ehdr, file]
      exact read.ehdr
    · rw [filePhdrs, ehdr, file]
      exact read.filePhdrs
  refine ⟨?_, ?_, ?_⟩
  · intro other member
    rcases (mem_emplace ran).mp member with earlier | rfl
    · exact founded.headers other earlier
    · exact headers
  · intro none
    rw [binaries] at none
    exact absurd none (List.append_ne_nil_of_right_ne_nil _ (List.cons_ne_nil _ _))
  · intro main found
    rw [binaries] at found
    cases known : loader.binaries with
    | nil =>
        rw [known] at found
        cases found
        rw [base, founded.empty known]
    | cons first rest =>
        rw [known] at found
        obtain rfl : first = main := Option.some.inj found
        exact founded.place first (by rw [known]; rfl)

theorem Founded.load {loaded : DynLoader} {steps : Nat} {path : Path} (founded : Founded host loader)
    (loads : loader.loadDependingLibs host steps path = .ok loaded) (relocates : loaded.relocate host = .ok next) :
    Founded host next := by
  have ready : Founded host loaded := (Visits.of_loadDependingLibs loads).invariant (Founded host)
    (fun _ _ founded => founded.of_bookkeeping rfl rfl) (fun _ _ _ _ founded => founded.emplace) founded
  obtain ⟨_, _, same⟩ := relocate_pass relocates
  exact ready.of_bookkeeping (by rw [same]) (by rw [same])

theorem fresh_founded (memory : Memory) : Founded host (fresh memory) :=
  ⟨fun _ member => absurd member List.not_mem_nil, fun _ => rfl, fun _ found => nomatch found⟩

theorem Run.founded (run : Run host mainPath loader) : Founded host loader := by
  induction run with
  | startup libraries ran => exact (fresh_founded _).load libraries ran
  | program _ memory ih => exact ih.of_bookkeeping rfl rfl
  | tls _ ran ih =>
      have same := executeTls_bookkeeping ran
      exact ih.of_bookkeeping same.binaries same.nextBaseAddr
  | dlopen _ ran ih =>
      obtain rfl | ⟨path, loaded, loads, relocates⟩ := sloaderDlopen_cases ran
      · exact ih
      · exact ih.load loads relocates

theorem Run.main (run : Run host mainPath loader) :
    ∃ main, loader.binaries[0]? = some main ∧ main.path = mainPath := by
  obtain ⟨main, opened, linkMap, opens, _⟩ := run.history_exists
  obtain ⟨binary, first, path⟩ := opens.root
  refine ⟨binary, ?_, path⟩
  rw [linkMap.binaries, List.flatMap_cons, List.getElem?_append_left (List.getElem?_eq_some_iff.mp first).1]
  exact first

variable {getauxval : Elf64Xword → Elf64Xword} {args envs : StringVector} {rsp : Address} {memory : Memory}
  {steps : Nat} {entry : Entry}

theorem run_steps {start : DynLoader}
    (ran : (start.run host call getauxval args envs rsp steps mainPath).outcome = .ok entry) :
    ∃ loaded relocated, start.loadDependingLibs host steps mainPath = .ok loaded ∧
      loaded.relocate host = .ok relocated ∧
      (relocated.execute host call getauxval args envs rsp).outcome = .ok entry := by
  simp only [run, Traced.outcome_bind_ok, Traced.outcome_lift] at ran
  obtain ⟨loaded, loads, relocated, relocates, executes⟩ := ran
  exact ⟨loaded, relocated, loads, relocates, executes⟩

theorem Standing.startup {loaded relocated : DynLoader} (sound : host.MmapSound)
    (loads : (fresh memory).loadDependingLibs host steps mainPath = .ok loaded)
    (relocates : loaded.relocate host = .ok relocated) :
    Standing host mainPath stores relocated ∧ relocated.tlsOffset = 4096 := by
  refine ⟨⟨.startup loads relocates, ?_⟩, ?_⟩
  · intro inOrder
    have imaged := (fresh_imaged memory).load sound (history_fresh memory) loads relocates inOrder
    exact imaged.mono (Set.empty_subset stores)
  · exact (relocate_tlsOffset relocates).trans (loadDependingLibs_tlsOffset loads)

/-- What `Execute` leaves to the program. -/
theorem Standing.execute (standing : Standing host mainPath stores loader) (offset : loader.tlsOffset = 4096)
    (sound : host.MmapSound) (behaves : Behaves host stores call)
    (executes : (loader.execute host call getauxval args envs rsp).outcome = .ok entry) :
    Standing host mainPath (stores ∪
      { address | ∃ block ∈ tlsBlocks (host.tlsBlock + 4096) entry.loader.binaries,
        block.Covers address ∨ block.CoversPointer address } ∪
      stackArea rsp (stackNum args envs (auxTvs getauxval)).toNat) entry.loader ∧
    ∃ main, entry.loader.binaries[0]? = some main ∧ entry.rip = main.ehdr.eEntry + main.baseAddr := by
  obtain ⟨initialised, stack, ready, main, initialises, pushed, fills, first, rfl⟩ := execute_steps executes
  rw [initialStack_eq] at pushed
  cases pushed
  obtain ⟨acted, kept⟩ := standing.acts sound (behaves.runInitialisers initialises)
  have binaries := (executeTls_bookkeeping fills).binaries
  have filled : Standing host mainPath (stores ∪ initialised.tlsArea host) ready := by
    refine ⟨acted.run.tls fills, fun inOrder => ?_⟩
    have before := acted.imaged (by rwa [binaries] at inOrder)
    exact before.executeTls fills inOrder
  have bound : 8 * (stackWords args envs (auxTvs getauxval)).length ≤ 2 ^ 64 := Nat.le_of_lt stackWords_bound
  have entered := filled.program (@executeCore_extends _ ready.memory rsp bound)
  rw [tlsArea, kept, offset, ← binaries, ← stackNum_toNat] at entered
  exact ⟨entered, main, first, rfl⟩

theorem Founded.entryPoint {main : ELFBinary} (founded : Founded host loader)
    (first : loader.binaries[0]? = some main) :
    let ehdr := Elf64Ehdr.read (ELFBinary.fileBytes main.file) 0
    main.ehdr.eEntry + main.baseAddr = if ehdr.eType = .dyn then ehdr.eEntry + 0x1400000 else ehdr.eEntry := by
  intro ehdr
  have same : main.ehdr = ehdr := (founded.headers main (List.mem_of_getElem? first)).ehdr
  rw [founded.place main first, same]
  split
  · rfl
  · exact BitVec.add_zero _

/-- A program that gets control does so at the entry that the file at `mainPath` names,
moved up if that is a shared object, with its arguments, its environment and the
auxiliary vector on the stack.  If the headers are in order, it finds every binary with
its segments relocated: only the stack, the TLS blocks and what an initialiser has
stored lie over them. -/
theorem run_entry (sound : host.MmapSound) (behaves : Behaves host stores call)
    (ran : ((fresh memory).run host call getauxval args envs rsp steps mainPath).outcome = .ok entry) :
    Run host mainPath entry.loader ∧
    (∃ file, host.openFile mainPath = some file ∧
      let ehdr := Elf64Ehdr.read (ELFBinary.fileBytes file) 0
      entry.rip = if ehdr.eType = .dyn then ehdr.eEntry + 0x1400000 else ehdr.eEntry) ∧
    decodeStack entry.loader.memory.bytes entry.rsp =
      some { argc := BitVec.ofNat 64 args.pointers.length, argv := args.pointers, envp := envs.pointers,
             auxv := (auxTvs getauxval).pairs.reverse } ∧
    (∀ binary ∈ entry.loader.binaries, binary.FromFile host) ∧
    ((∀ binary ∈ entry.loader.binaries, binary.InOrder) →
      entry.loader.Imaged host (stores ∪
        { address | ∃ block ∈ tlsBlocks (host.tlsBlock + 4096) entry.loader.binaries,
          block.Covers address ∨ block.CoversPointer address } ∪
        stackArea rsp (stackNum args envs (auxTvs getauxval)).toNat)) := by
  obtain ⟨loaded, relocated, loads, relocates, executes⟩ := run_steps ran
  obtain ⟨started, offset⟩ := Standing.startup sound loads relocates
  obtain ⟨standing, main, first, place⟩ := started.execute offset sound behaves executes
  have founded := standing.run.founded
  obtain ⟨known, isMain, path⟩ := standing.run.main
  obtain rfl : main = known := Option.some.inj (first.symm.trans isMain)
  refine ⟨standing.run, ⟨main.file, ?_, ?_⟩, execute_stack executes, founded.headers, standing.imaged⟩
  · rw [← path]
    exact (founded.headers main (List.mem_of_getElem? first)).file
  · rw [place]
    exact founded.entryPoint first

/-- The objects of `Sample.tlsHost`, with a `DT_INIT` in the executable. -/
def entryHost : Host :=
  -- the strings are "a", "x" and "y", at 2, 4 and 6
  let strings : List (BitVec 64) := [0x79007800610000]
  let executable : Sample.Object :=
    { header := [7, 232, 232, 0, 8, 8, 8], data := [0x1111111111111111, 0, 0], strings, needed := [2]
      symbols := [0, 0, 0, 0x1001600000004, 0, 8]
      relas := [240, 0x100000010, 0, 248, 0x100000011, 0] }
  let library : Sample.Object :=
    { header := [7, 232, 232, 0, 8, 8, 8], data := [0x2222222222222222], strings
      symbols := [0, 0, 0, 0x1001600000006, 0, 8] }
  Sample.host [(ascii "m", executable.fileWith [12, 232]), (ascii "a", library.file)] fun _ => none

def entryRun : Traced Stop (Event Access) Entry :=
  (fresh Sample.memory).run entryHost (runCode fun _ => settingCode) (fun _ => 1) noStrings noStrings 0x7fff00000000 12
    (ascii "/bin/m")

theorem entryRun_facts :
    entryRun.outcome.toOption.map (fun entry => decide (
      entry.loader.binaries.length = 2 ∧ entry.loader.processed.length = 2 ∧ entry.rip = 0x1400000 ∧
      ∀ binary ∈ entry.loader.binaries,
        (binary.hasTls = true → binary.fileTls.pFilesz.toNat ≤ binary.fileTls.pMemsz.toNat) ∧
        ∀ ph ∈ binary.filePhdrs, ph.pType = .load →
          ph.pFilesz.toNat ≤ ph.pMemsz.toNat ∧ ph.pOffset.toNat + ph.pFilesz.toNat ≤ binary.file.length ∧
          binary.file.length < 2 ^ 64 ∧
          ph.pVaddr.toNat + ph.pMemsz.toNat + binary.baseAddr.toNat + 0xfff < 2 ^ 64)) = some true ∧
    accesses entryRun.events = [.load 0x7f0000000ff8 0, .store 0x7f0000000ff8 0x55] := by
  decide +kernel

theorem settingCode_within : settingCode.StoresWithin {0x7f0000000ff8} :=
  fun _ => ⟨rfl, trivial⟩

theorem run_entry_entryHost :
    ∃ entry : Entry, entryRun.outcome = .ok entry ∧ entry.loader.binaries.length = 2 ∧
      entry.loader.processed.length = 2 ∧ entry.rip = 0x1400000 ∧
      entry.loader.Imaged entryHost ({0x7f0000000ff8} ∪
        { address | ∃ block ∈ tlsBlocks (entryHost.tlsBlock + 4096) entry.loader.binaries,
          block.Covers address ∨ block.CoversPointer address } ∪
        stackArea 0x7fff00000000 (stackNum noStrings noStrings (auxTvs fun _ => 1)).toNat) := by
  obtain ⟨entry, ran, facts⟩ := Option.map_eq_some_iff.mp entryRun_facts.1
  obtain ⟨two, processed, place, inOrder⟩ := of_decide_eq_true facts
  have entered := eq_ok_of_toOption ran
  have headers (binary : ELFBinary) (member : binary ∈ entry.loader.binaries) : binary.InOrder :=
    inOrder_of_sizes (inOrder binary member).1 (inOrder binary member).2
  have behaves : Behaves entryHost {0x7f0000000ff8} (runCode fun _ => settingCode) :=
    runCode_behaves fun _ => settingCode_within
  obtain ⟨_, _, _, _, imaged⟩ := run_entry (Sample.host_mmapSound _ _) behaves entered
  exact ⟨entry, entered, two, processed, place, imaged headers⟩

end DynLoader

end Sloader
