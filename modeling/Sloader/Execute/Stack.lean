import Sloader.Data.Words
import Sloader.Execute

namespace Sloader

open Data

/-! The stack that a program starts with.  The words are written into an array in
one order and pushed in the other, so that what the program reads upwards from its
stack pointer is the array backwards. -/

structure InitialStack where
  argc : BitVec 64
  argv : List Address
  envp : List Address
  auxv : List (Elf64Xword × Elf64Xword)
deriving Repr, DecidableEq

/-- The pairs of a type and a value up to `AT_NULL`. -/
def readAuxv (bytes : Bytes) : Nat → Address → Option (List (Elf64Xword × Elf64Xword))
  | 0, _ => none
  | fuel + 1, start =>
      if bytes.load64 start = 0 then some []
      else (readAuxv bytes fuel (start + 16)).map ((bytes.load64 start, bytes.load64 (start + 8)) :: ·)

/-- How the System V ABI reads the stack: the number of arguments, their pointers
and a null word, the environment up to a null word, the auxiliary vector. -/
def decodeStack (bytes : Bytes) (rsp : Address) : Option InitialStack := do
  let argc := bytes.load64 rsp
  let argv := bytes.readWords (rsp + 8) argc.toNat
  let null := rsp + 8 + BitVec.ofNat 64 (8 * argc.toNat)
  if bytes.load64 null ≠ 0 then none
  else do
    let (envp, start) ← bytes.readToZero (2 ^ 64) (null + 8)
    let auxv ← readAuxv bytes (2 ^ 64) start
    return { argc, argv, envp, auxv }

/-- The words of such a stack, from its stack pointer up. -/
def InitialStack.words (stack : InitialStack) : List (BitVec 64) :=
  stack.argc :: (stack.argv ++ 0 :: (stack.envp ++ 0 :: stack.auxv.flatMap fun tv => [tv.1, tv.2]))

variable {bytes : Bytes} {memory : Memory} {rsp start : Address} {rest : List (BitVec 64)}

theorem readAuxv_eq {pairs : List (Elf64Xword × Elf64Xword)} {fuel : Nat} (enough : pairs.length < fuel)
    (nonzero : ∀ tv ∈ pairs, tv.1 ≠ 0)
    (held : bytes.WordsAt start ((pairs.flatMap fun tv => [tv.1, tv.2]) ++ 0 :: rest)) :
    readAuxv bytes fuel start = some pairs := by
  induction pairs generalizing start fuel with
  | nil =>
      cases fuel with
      | zero => exact absurd enough (Nat.not_lt_zero _)
      | succ fuel =>
          rw [readAuxv, if_pos held.1]
  | cons tv more ih =>
      cases fuel with
      | zero => exact absurd enough (Nat.not_lt_zero _)
      | succ fuel =>
          obtain ⟨type, value, tail⟩ := held
          have next : start + 8 + 8 = start + 16 := by rw [BitVec.add_assoc]; rfl
          rw [next] at tail
          have others := ih (by simpa using enough) (fun other member => nonzero other (List.mem_cons_of_mem tv member))
            tail
          have running := nonzero tv List.mem_cons_self
          rw [readAuxv, type, value, if_neg running, others]
          rfl

theorem decodeStack_eq {stack : InitialStack} (count : stack.argv.length = stack.argc.toNat)
    (environment : stack.envp.length < 2 ^ 64) (nonnull : ∀ pointer ∈ stack.envp, pointer ≠ 0)
    (auxiliary : stack.auxv.length < 2 ^ 64) (nonzero : ∀ tv ∈ stack.auxv, tv.1 ≠ 0)
    (held : bytes.WordsAt rsp (stack.words ++ 0 :: rest)) : decodeStack bytes rsp = some stack := by
  simp only [InitialStack.words, List.cons_append, List.append_assoc] at held
  obtain ⟨argc, tail⟩ := held
  obtain ⟨arguments, null, after⟩ := tail.split
  obtain ⟨next, read, last⟩ := after.readToZero environment nonnull
  have pairs := readAuxv_eq auxiliary nonzero last
  have argv : bytes.readWords (rsp + 8) stack.argc.toNat = stack.argv := by
    rw [← count]
    exact arguments.readWords
  rw [count] at null read
  simp only [decodeStack, argc, argv, null, ne_eq, not_true_eq_false, if_false, read, pairs, bind, Option.bind]
  rfl

theorem executeCore_wordsAt (stack : List (BitVec 64)) {above : List (BitVec 64)}
    (bound : 8 * (stack.length + above.length) ≤ 2 ^ 64) (held : memory.bytes.WordsAt rsp above) :
    (executeCore stack memory rsp).1.bytes.WordsAt (executeCore stack memory rsp).2 (stack.reverse ++ above) := by
  induction stack generalizing memory rsp above with
  | nil => exact held
  | cons word rest ih =>
      have pushed := held.push (by simp only [List.length_cons] at bound; omega) word
      have all := @ih (pushq (memory, rsp) word).1 (pushq (memory, rsp) word).2 (word :: above)
        (by simp only [List.length_cons] at bound ⊢; omega) pushed
      rw [List.reverse_cons, List.append_assoc]
      exact all

namespace Frame

/-- The words written so far, with room for more. -/
structure Holds (frame : Frame) (done : List (BitVec 64)) (left : Nat) : Prop where
  stack : frame.stack = done ++ List.replicate left 0
  index : frame.stackIndex = BitVec.ofNat 64 done.length
  bound : done.length + left < 2 ^ 64

variable {frame : Frame} {done words : List (BitVec 64)} {left count : Nat}

theorem Holds.put (held : frame.Holds done (left + 1)) (word : BitVec 64) :
    (frame.put word).Holds (done ++ [word]) left := by
  have bound := held.bound
  have place : frame.stackIndex.toNat = done.length := by
    rw [held.index, BitVec.toNat_ofNat, Nat.mod_eq_of_lt (by omega)]
  refine ⟨?_, ?_, by simp only [List.length_append, List.length_singleton]; omega⟩
  · simp [Frame.put, place, held.stack, List.replicate_succ]
  · rw [Frame.put, held.index, List.length_append, BitVec.ofNat_add]
    rfl

theorem Holds.skip (held : frame.Holds done (count + left)) :
    (frame.skip (BitVec.ofNat 64 count)).Holds (done ++ List.replicate count 0) left := by
  have bound := held.bound
  refine ⟨?_, ?_, by simp only [List.length_append, List.length_replicate]; omega⟩
  · rw [Frame.skip, held.stack, List.append_assoc, List.replicate_append_replicate]
  · rw [Frame.skip, held.index, List.length_append, List.length_replicate, BitVec.ofNat_add]

theorem Holds.putAll (held : frame.Holds done (words.length + left)) :
    (words.foldl Frame.put frame).Holds (done ++ words) left := by
  induction words generalizing frame done with
  | nil => simpa using held
  | cons word rest ih =>
      rw [List.length_cons, Nat.add_right_comm] at held
      have all := ih (held.put word)
      rwa [List.append_assoc] at all

theorem putStrings_eq (frame : Frame) (strings : List Address) :
    frame.putStrings strings = strings.reverse.foldl Frame.put frame := by
  have backwards : strings.reverse =
      (List.range strings.length).map fun i => strings.getD (strings.length - 1 - i) 0 := by
    apply List.ext_getElem (by simp)
    intro index inReverse inRange
    have within : index < strings.length := by simpa using inReverse
    rw [List.getElem_reverse, List.getElem_map, List.getElem_range, List.getD_eq_getElem?_getD,
      List.getElem?_eq_getElem (by omega), Option.getD_some]
  rw [backwards, List.foldl_map, Frame.putStrings]

theorem putAux_eq (frame : Frame) (pairs : List (Elf64Xword × Elf64Xword)) :
    pairs.foldl (fun frame tv => (frame.put tv.2).put tv.1) frame =
      (pairs.flatMap fun tv => [tv.2, tv.1]).foldl Frame.put frame := by
  rw [List.foldl_flatMap]
  rfl

end Frame

variable {args envs : StringVector} {aux : AuxVector}

def stackWords (args envs : StringVector) (aux : AuxVector) : List (BitVec 64) :=
  List.replicate 6 0 ++ (aux.pairs.flatMap fun tv => [tv.2, tv.1]) ++ [0] ++ envs.pointers.reverse ++ [0] ++
    args.pointers.reverse ++ [BitVec.ofNat 64 args.pointers.length]

theorem stackWords_length :
    (stackWords args envs aux).length =
      9 + 2 * aux.pairs.length + envs.pointers.length + args.pointers.length := by
  simp [stackWords, List.length_flatMap]
  omega

theorem stackWords_bound : 8 * (stackWords args envs aux).length < 2 ^ 64 := by
  have argsSize := args.size
  have envsSize := envs.size
  have auxSize := aux.size
  rw [stackWords_length]
  omega

theorem stackNum_toNat : (stackNum args envs aux).toNat = (stackWords args envs aux).length := by
  have bound := @stackWords_bound args envs aux
  rw [stackWords_length] at bound ⊢
  rw [stackNum]
  bv_omega

theorem filledFrame_holds : (filledFrame args envs aux).Holds (stackWords args envs aux) 0 := by
  have bound := @stackWords_bound args envs aux
  have length := @stackWords_length args envs aux
  have num := @stackNum_toNat args envs aux
  have size : (8 * stackNum args envs aux).toNat / 8 =
      4 + (2 + ((aux.pairs.flatMap fun tv => [tv.2, tv.1]).length + (1 + (envs.pointers.reverse.length +
        (1 + (args.pointers.reverse.length + (0 + 1))))))) := by
    have pairs : (aux.pairs.flatMap fun tv => [tv.2, tv.1]).length = 2 * aux.pairs.length := by
      simp [List.length_flatMap, Nat.mul_comm]
    rw [pairs, List.length_reverse, List.length_reverse]
    bv_omega
  have empty : Frame.Holds ⟨List.replicate ((8 * stackNum args envs aux).toNat / 8) 0, 0⟩ []
      ((8 * stackNum args envs aux).toNat / 8) :=
    ⟨rfl, rfl, by simp only [List.length_nil]; omega⟩
  rw [filledFrame, size, Frame.putAux_eq, Frame.putStrings_eq, Frame.putStrings_eq]
  rw [size] at empty
  exact empty.skip.skip.putAll.skip.putAll.skip.putAll.put (BitVec.ofNat 64 args.pointers.length)

/-- The check at the end never fails. -/
theorem initialStack_eq : initialStack args envs aux = .ok (stackWords args envs aux) := by
  have filled := @filledFrame_holds args envs aux
  have last : (filledFrame args envs aux).stackIndex = stackNum args envs aux := by
    rw [filled.index, ← stackNum_toNat, BitVec.ofNat_toNat, BitVec.setWidth_eq]
  have stack : (filledFrame args envs aux).stack = stackWords args envs aux := by
    rw [filled.stack, List.replicate_zero, List.append_nil]
  simp only [initialStack, last, stack, BEq.rfl, bind_eq_ok, check_eq_ok, pure_eq_ok]
  exact ⟨(), trivial, trivial⟩

theorem stackWords_decodes (nonzero : ∀ tv ∈ aux.pairs, tv.1 ≠ 0) (memory : Memory) (rsp : Address) :
    decodeStack (executeCore (stackWords args envs aux) memory rsp).1.bytes
        (executeCore (stackWords args envs aux) memory rsp).2 =
      some { argc := BitVec.ofNat 64 args.pointers.length, argv := args.pointers, envp := envs.pointers,
             auxv := aux.pairs.reverse } := by
  have bound := @stackWords_bound args envs aux
  have length := @stackWords_length args envs aux
  have held := @executeCore_wordsAt memory rsp (stackWords args envs aux) [] (by simp; omega) trivial
  have backwards : (stackWords args envs aux).reverse = InitialStack.words
      { argc := BitVec.ofNat 64 args.pointers.length, argv := args.pointers, envp := envs.pointers,
        auxv := aux.pairs.reverse } ++ 0 :: List.replicate 5 0 := by
    have pairs : (aux.pairs.flatMap fun tv => [tv.2, tv.1]).reverse =
        aux.pairs.reverse.flatMap fun tv => [tv.1, tv.2] := by
      rw [List.reverse_flatMap]
      rfl
    simp [stackWords, InitialStack.words, pairs]
  rw [List.append_nil, backwards] at held
  refine decodeStack_eq ?_ ?_ envs.nonnull ?_ ?_ held
  · rw [BitVec.toNat_ofNat, Nat.mod_eq_of_lt (by omega)]
  · exact Nat.lt_trans envs.size (by decide)
  · rw [List.length_reverse]
    omega
  · intro tv member
    exact nonzero tv (List.mem_reverse.mp member)

/-- The stack that the program starts with has the arguments, the environment and
the auxiliary vector on it, the last in the reverse of the order it was
collected in. -/
theorem executeCore_decodes (args envs : StringVector) (aux : AuxVector) (nonzero : ∀ tv ∈ aux.pairs, tv.1 ≠ 0) :
    ∃ stack, initialStack args envs aux = .ok stack ∧ ∀ memory rsp,
      decodeStack (executeCore stack memory rsp).1.bytes (executeCore stack memory rsp).2 =
        some { argc := BitVec.ofNat 64 args.pointers.length, argv := args.pointers, envp := envs.pointers,
               auxv := aux.pairs.reverse } := by
  refine ⟨stackWords args envs aux, initialStack_eq, ?_⟩
  intro memory rsp
  exact stackWords_decodes nonzero memory rsp

theorem executeCore_decodes_pagesz :
    let args : StringVector := ⟨[0x1000, 0x2000], by simp, by simp⟩
    let envs : StringVector := ⟨[0x3000], by simp, by simp⟩
    let aux : AuxVector := ⟨[(6, 4096), (25, 0x4000)], by simp⟩
    ∃ stack, initialStack args envs aux = .ok stack ∧ ∀ memory rsp,
      decodeStack (executeCore stack memory rsp).1.bytes (executeCore stack memory rsp).2 =
        some { argc := 2, argv := [0x1000, 0x2000], envp := [0x3000], auxv := [(25, 0x4000), (6, 4096)] } := by
  intro args envs aux
  exact executeCore_decodes args envs aux (by simp [aux])

theorem auxTvs_nonzero (getauxval : Elf64Xword → Elf64Xword) :
    ∀ tv ∈ (auxTvs getauxval).pairs, tv.1 ≠ 0 ∧ tv.2 ≠ 0 := by
  intro tv member
  have types : ∀ type ∈ auxTypes, type ≠ 0 := by simp [auxTypes]
  simp only [auxTvs, List.mem_filter, List.mem_map, bne_iff_ne] at member
  obtain ⟨⟨type, isType, rfl⟩, value⟩ := member
  exact ⟨types type isType, value⟩

/-- The stack of every program that is started. -/
theorem DynLoader.execute_stack {α : Type} {host : Host} {call : Address → DynLoader → Traced Stop α DynLoader}
    {getauxval : Elf64Xword → Elf64Xword} {loader : DynLoader} {entry : Entry}
    (ran : (loader.execute host call getauxval args envs rsp).outcome = .ok entry) :
    decodeStack entry.loader.memory.bytes entry.rsp =
      some { argc := BitVec.ofNat 64 args.pointers.length, argv := args.pointers, envp := envs.pointers,
             auxv := (auxTvs getauxval).pairs.reverse } := by
  obtain ⟨_, stack, ready, _, _, stacked, _, _, rfl⟩ := DynLoader.execute_steps ran
  rw [initialStack_eq] at stacked
  cases stacked
  exact stackWords_decodes (fun tv member => (auxTvs_nonzero getauxval tv member).1) ready.memory rsp

end Sloader
