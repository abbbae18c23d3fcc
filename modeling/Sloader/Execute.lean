import Sloader.Data.Traced
import Sloader.Tls

namespace Sloader

open Data

/-! `Execute`: the initialisers of all binaries, the words that the program finds
on its stack, its thread-local storage, and the jump to its entry.  The code of the
initialisers is not the loader's: what a call does to the process, and what it is
seen to do, is a parameter. -/

inductive Place where
  | init
  | array (index : Nat)
deriving Repr, DecidableEq

def Place.rank : Place → Nat
  | .init => 0
  | .array index => index + 1

/-- A call of an initialiser of the binary at an index of `binaries_`. -/
structure Call where
  binary : Nat
  place : Place
  function : Address
deriving Repr, DecidableEq

inductive Event (α : Type) where
  | call (call : Call)
  | act (action : α)

namespace DynLoader

variable {α : Type} (call : Address → DynLoader → Traced Stop α DynLoader)

def callInitialiser (place : Call) (loader : DynLoader) : Traced Stop (Event α) DynLoader := do
  .report (.call place)
  (call place.function loader).relabel .act

/-- The loop over `DT_INIT_ARRAY`, with `count` entries to go.  `LOG(FATAL)` does not
end the process, so a null entry only ends the loop. -/
def callInitArray (binary : Nat) (initArrayFuns : Address) :
    Nat → Nat → DynLoader → Traced Stop (Event α) DynLoader
  | 0, _, loader => pure loader
  | count + 1, index, loader =>
      let function := loader.memory.bytes.load64 (initArrayFuns + BitVec.ofNat 64 (8 * index))
      if function = 0 then pure loader
      else do
        let loader ← callInitialiser call ⟨binary, .array index, function⟩ loader
        callInitArray binary initArrayFuns count (index + 1) loader

def callInit (index : Nat) (binary : ELFBinary) (loader : DynLoader) : Traced Stop (Event α) DynLoader :=
  if binary.init ≠ 0 then callInitialiser call ⟨index, .init, binary.init + binary.baseAddr⟩ loader
  else pure loader

def callArray (index : Nat) (binary : ELFBinary) (loader : DynLoader) : Traced Stop (Event α) DynLoader :=
  if binary.initArraysz ≠ 0 then do
    .lift (check (binary.initArraysz % 8 == 0) "(binaries_[i].init_arraysz() % 8) == (0UL)")
    callInitArray call index (binary.initArray + binary.baseAddr) (binary.initArraysz / 8).toNat 0 loader
  else pure loader

/-- The turn of the binary at an index.  A binary does not change once it is
loaded, so it is looked up once. -/
def initialise (index : Nat) (loader : DynLoader) : Traced Stop (Event α) DynLoader :=
  match loader.binaries[index]? with
  | none => .lift (.error .segmentationFault)
  | some binary => do
      let loader ← callInit call index binary loader
      callArray call index binary loader

/-- The turns of the first `count` binaries, the last of them first. -/
def initialiseDown : Nat → DynLoader → Traced Stop (Event α) DynLoader
  | 0, loader => pure loader
  | index + 1, loader => do
      let loader ← initialise call index loader
      initialiseDown index loader

def runInitialisers (loader : DynLoader) : Traced Stop (Event α) DynLoader :=
  initialiseDown call loader.binaries.length loader

end DynLoader

/-- What is used of a `std::vector<std::string>`: the pointers that `c_str()` returns,
none of which is null.  With strings of 32 bytes it has fewer than `2 ^ 58` elements. -/
structure StringVector where
  pointers : List Address
  nonnull : ∀ pointer ∈ pointers, pointer ≠ 0
  size : pointers.length < 2 ^ 58

/-- A vector of pairs, of 16 bytes each, of a type and a value. -/
structure AuxVector where
  pairs : List (Elf64Xword × Elf64Xword)
  size : pairs.length < 2 ^ 59

/-- `aux_types`, from `AT_IGNORE` to `AT_MINSIGSTKSZ`. -/
def auxTypes : List Elf64Xword :=
  [1, 4, 6, 8, 10, 11, 12, 13, 14, 17, 15, 16, 18, 19, 20, 21, 22, 23, 24, 25, 26, 32, 33, 34, 35, 36, 37, 40, 41,
    42, 43, 44, 45, 46, 47, 51]

def atRandom : Elf64Xword := 25

def auxTvs (getauxval : Elf64Xword → Elf64Xword) : AuxVector where
  pairs := (auxTypes.map fun type => (type, getauxval type)).filter fun tv => tv.2 != 0
  size := by
    refine Nat.lt_of_le_of_lt (List.length_filter_le _ _) ?_
    rw [List.length_map]
    decide

/-- The array that the words are written to, and `stack_index`. -/
structure Frame where
  stack : List (BitVec 64)
  stackIndex : BitVec 64

namespace Frame

def put (frame : Frame) (word : BitVec 64) : Frame where
  stack := frame.stack.set frame.stackIndex.toNat word
  stackIndex := frame.stackIndex + 1

def skip (frame : Frame) (count : BitVec 64) : Frame :=
  { frame with stackIndex := frame.stackIndex + count }

/-- The loop over a vector of strings, from its last element to its first. -/
def putStrings (frame : Frame) (strings : List Address) : Frame :=
  (List.range strings.length).foldl
    (fun frame i => frame.put (strings.getD (strings.length - 1 - i) 0)) frame

end Frame

def stackNum (args envs : StringVector) (auxTvs : AuxVector) : BitVec 64 :=
  4 + 2 + 2 * BitVec.ofNat 64 auxTvs.pairs.length + 1 + BitVec.ofNat 64 envs.pointers.length + 2 +
    BitVec.ofNat 64 args.pointers.length

/-- The array when everything has been written to it. -/
def filledFrame (args envs : StringVector) (auxTvs : AuxVector) : Frame :=
  let stackSize := 8 * stackNum args envs auxTvs
  let frame : Frame := { stack := List.replicate (stackSize.toNat / 8) 0, stackIndex := 0 }
  let frame := frame.skip 4
  let frame := frame.skip 2
  let frame := auxTvs.pairs.foldl (fun frame tv => (frame.put tv.2).put tv.1) frame
  let frame := frame.skip 1
  let frame := frame.putStrings envs.pointers
  let frame := frame.skip 1
  let frame := frame.putStrings args.pointers
  frame.put (BitVec.ofNat 64 args.pointers.length)

def initialStack (args envs : StringVector) (auxTvs : AuxVector) : Except Stop (List (BitVec 64)) := do
  let frame := filledFrame args envs auxTvs
  check (frame.stackIndex == stackNum args envs auxTvs) "(stack_index) == (stack_num)"
  return frame.stack

/-- `pushq`, on the memory and the stack pointer. -/
def pushq (state : Memory × Address) (word : BitVec 64) : Memory × Address :=
  (state.1.store64 (state.2 - 8) word, state.2 - 8)

def executeCore (stack : List (BitVec 64)) (memory : Memory) (rsp : Address) : Memory × Address :=
  stack.foldl pushq (memory, rsp)

/-- The process when the program gets control. -/
structure Entry where
  loader : DynLoader
  rsp : Address
  rip : Address

def DynLoader.execute {α : Type} (host : Host) (call : Address → DynLoader → Traced Stop α DynLoader)
    (getauxval : Elf64Xword → Elf64Xword) (args envs : StringVector) (rsp : Address) (loader : DynLoader) :
    Traced Stop (Event α) Entry := do
  let loader ← runInitialisers call loader
  .lift (check (getauxval atRandom != 0) "(at_random) != (0UL)")
  let stack ← .lift (initialStack args envs (auxTvs getauxval))
  let loader ← .lift (loader.executeTls host)
  match loader.binaries[0]? with
  | none => .lift (.error .segmentationFault)
  | some main =>
      let (memory, rsp) := executeCore stack loader.memory rsp
      return { loader := loader.withMemory memory, rsp, rip := main.ehdr.eEntry + main.baseAddr }

/-- `DynLoader::Run`, for the file at `mainPath`. -/
def DynLoader.run {α : Type} (host : Host) (call : Address → DynLoader → Traced Stop α DynLoader)
    (getauxval : Elf64Xword → Elf64Xword) (args envs : StringVector) (rsp : Address) (steps : Nat) (mainPath : Path)
    (loader : DynLoader) : Traced Stop (Event α) Entry := do
  let loader ← .lift (loader.loadDependingLibs host steps mainPath)
  let loader ← .lift (loader.relocate host)
  loader.execute host call getauxval args envs rsp

namespace DynLoader

variable {α : Type} {host : Host} {call : Address → DynLoader → Traced Stop α DynLoader}
  {getauxval : Elf64Xword → Elf64Xword} {args envs : StringVector} {rsp : Address} {loader : DynLoader} {entry : Entry}

theorem execute_steps (ran : (loader.execute host call getauxval args envs rsp).outcome = .ok entry) :
    ∃ initialised stack ready main, (runInitialisers call loader).outcome = .ok initialised ∧
      initialStack args envs (auxTvs getauxval) = .ok stack ∧ initialised.executeTls host = .ok ready ∧
      ready.binaries[0]? = some main ∧
      entry = { loader := ready.withMemory (executeCore stack ready.memory rsp).1
                rsp := (executeCore stack ready.memory rsp).2
                rip := main.ehdr.eEntry + main.baseAddr } := by
  simp only [execute, Traced.outcome_bind_ok, Traced.outcome_lift] at ran
  obtain ⟨initialised, initialises, _, _, stack, stacked, ready, fills, ran⟩ := ran
  split at ran
  · contradiction
  · rename_i main first
    rw [Traced.outcome_pure] at ran
    exact ⟨initialised, stack, ready, main, initialises, stacked, fills, first, (Except.ok.inj ran).symm⟩

/-- Nothing but the initialisers is seen before the program starts. -/
theorem execute_events :
    (loader.execute host call getauxval args envs rsp).events = (runInitialisers call loader).events := by
  have silent {β : Type} (action : Except Stop β) (next : β → Traced Stop (Event α) Entry)
      (quiet : ∀ value, (next value).events = []) : (Traced.lift action >>= next).events = [] := by
    cases action with
    | error reason => exact (Traced.bind_stopped rfl).1
    | ok value => rw [Traced.events_bind rfl, quiet value, Traced.events_lift, List.append_nil]
  rw [execute]
  cases ran : (runInitialisers call loader).outcome with
  | error reason => exact (Traced.bind_stopped ran).1
  | ok initialised =>
      rw [Traced.events_bind ran]
      refine (congrArg _ (silent _ _ fun _ => silent _ _ fun _ => silent _ _ fun ready => ?_)).trans (List.append_nil _)
      cases ready.binaries[0]? <;> rfl

theorem run_eq {start loaded : DynLoader} {steps : Nat} {mainPath : Path}
    (libraries : start.loadDependingLibs host steps mainPath = .ok loaded)
    (relocates : loaded.relocate host = .ok loader) :
    start.run host call getauxval args envs rsp steps mainPath =
      loader.execute host call getauxval args envs rsp := by
  rw [run, libraries, Traced.lift_bind, relocates, Traced.lift_bind]

end DynLoader

end Sloader
