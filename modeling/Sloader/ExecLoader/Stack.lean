import Sloader.Execute.Stack
import Sloader.ExecLoader

namespace Sloader

open Data

/-! The stack of a program that `ExecLoader` starts: it is the one that `DynLoader`
would make of the environment backwards. -/

def StringVector.reverse (strings : StringVector) : StringVector where
  pointers := strings.pointers.reverse
  nonnull := by
    intro pointer member
    exact strings.nonnull pointer (List.mem_reverse.mp member)
  size := by
    rw [List.length_reverse]
    exact strings.size

namespace ExecLoader

def CStr.vector (filename : CStr) : StringVector where
  pointers := [filename.1]
  nonnull := by
    intro pointer member
    rw [List.mem_singleton.mp member]
    exact filename.2
  size := by simp

variable {filename : CStr} {envs : StringVector} {aux : AuxVector} {getauxval : Elf64Xword → Elf64Xword}

/-- The words of the array, in terms of those of `DynLoader`. -/
abbrev words (filename : CStr) (envs : StringVector) (aux : AuxVector) : List (BitVec 64) :=
  stackWords filename.vector envs.reverse aux

theorem words_length : (words filename envs aux).length = 10 + 2 * aux.pairs.length + envs.pointers.length := by
  rw [stackWords_length, StringVector.reverse, List.length_reverse, CStr.vector, List.length_singleton]
  omega

theorem stackNum_toNat : (stackNum envs aux).toNat = (words filename envs aux).length := by
  have bound := @stackWords_bound filename.vector envs.reverse aux
  rw [words_length] at bound ⊢
  rw [stackNum]
  bv_omega

theorem filledFrame_holds : (filledFrame filename envs aux).Holds (words filename envs aux) 0 := by
  have bound := @stackWords_bound filename.vector envs.reverse aux
  have num := @stackNum_toNat filename envs aux
  rw [words_length] at bound num
  have size : (8 * stackNum envs aux).toNat / 8 =
      4 + (2 + ((aux.pairs.flatMap fun tv => [tv.2, tv.1]).length + (1 + (envs.pointers.length +
        (1 + (0 + 1 + 1)))))) := by
    have pairs : (aux.pairs.flatMap fun tv => [tv.2, tv.1]).length = 2 * aux.pairs.length := by
      simp [List.length_flatMap, Nat.mul_comm]
    rw [pairs]
    bv_omega
  have empty : Frame.Holds ⟨List.replicate ((8 * stackNum envs aux).toNat / 8) 0, 0⟩ []
      ((8 * stackNum envs aux).toNat / 8) :=
    ⟨rfl, rfl, by simp only [List.length_nil]; omega⟩
  have order : words filename envs aux = [] ++ List.replicate 4 0 ++ List.replicate 2 0 ++
      (aux.pairs.flatMap fun tv => [tv.2, tv.1]) ++ List.replicate 1 0 ++ envs.pointers ++ List.replicate 1 0 ++
      [filename.1] ++ [1] := by
    simp [words, stackWords, StringVector.reverse, CStr.vector]
  rw [filledFrame, size, Frame.putAux_eq, order]
  rw [size] at empty
  exact (empty.skip.skip.putAll.skip.putAll.skip.put filename.1).put 1

theorem initialStack_eq : initialStack filename envs aux = .ok (words filename envs aux) := by
  have filled := @filledFrame_holds filename envs aux
  have last : (filledFrame filename envs aux).stackIndex = stackNum envs aux := by
    rw [filled.index, ← stackNum_toNat, BitVec.ofNat_toNat, BitVec.setWidth_eq]
  have stack : (filledFrame filename envs aux).stack = words filename envs aux := by
    rw [filled.stack, List.replicate_zero, List.append_nil]
  simp only [initialStack, last, stack, BEq.rfl, bind_eq_ok, check_eq_ok, pure_eq_ok]
  exact ⟨(), trivial, trivial⟩

/-- `Execute` stops exactly if there is no `AT_RANDOM`.  Else the program starts at
its entry, with the pointer that `filename().c_str()` was as the only argument, and
finds the variables of the environment in the reverse of their order; `DynLoader`
keeps the order, so that the two agree for an environment that reads the same
backwards. -/
theorem execute_decodes (loader : ExecLoader) (getauxval : Elf64Xword → Elf64Xword) (filename : CStr)
    (envs : StringVector) (rsp : Address) (memory : Memory) :
    ((∃ entry, loader.execute getauxval filename envs rsp memory = .ok entry) ↔ getauxval atRandom ≠ 0) ∧
    ∀ entry, loader.execute getauxval filename envs rsp memory = .ok entry →
      entry.2 = loader.ehdr.eEntry ∧
      decodeStack entry.1.1.bytes entry.1.2 =
        some { argc := 1, argv := [filename.1], envp := envs.pointers.reverse,
               auxv := (auxTvs getauxval).pairs.reverse } ∧
      ∀ stack, Sloader.initialStack filename.vector envs (auxTvs getauxval) = .ok stack →
        (decodeStack (executeCore stack memory rsp).1.bytes (executeCore stack memory rsp).2 =
            decodeStack entry.1.1.bytes entry.1.2 ↔ envs.pointers.reverse = envs.pointers) := by
  have nonzero : ∀ tv ∈ (auxTvs getauxval).pairs, tv.1 ≠ 0 := fun tv member => (auxTvs_nonzero getauxval tv member).1
  have ran {entry : (Memory × Address) × Elf64Addr} :
      loader.execute getauxval filename envs rsp memory = .ok entry ↔
        getauxval atRandom ≠ 0 ∧
          (executeCore (words filename envs (auxTvs getauxval)) memory rsp, loader.ehdr.eEntry) = entry := by
    simp only [execute, initialStack_eq, bind_eq_ok, check_eq_ok, pure_eq_ok, bne_iff_ne, Except.ok.injEq,
      exists_eq_left', exists_const]
  constructor
  · constructor
    · rintro ⟨entry, executed⟩
      exact (ran.mp executed).1
    · intro random
      exact ⟨_, ran.mpr ⟨random, rfl⟩⟩
  · intro entry executed
    obtain ⟨_, rfl⟩ := ran.mp executed
    have decoded := @stackWords_decodes filename.vector envs.reverse (auxTvs getauxval) nonzero memory rsp
    refine ⟨rfl, decoded, ?_⟩
    intro stack stacked
    rw [Sloader.initialStack_eq] at stacked
    cases stacked
    rw [stackWords_decodes nonzero memory rsp]
    rw [decoded]
    simp only [Option.some.injEq, InitialStack.mk.injEq, true_and, and_true, StringVector.reverse]
    exact eq_comm

end ExecLoader

end Sloader
