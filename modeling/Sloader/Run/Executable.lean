import Sloader.Run.Identity

namespace Sloader

open Data

/-! Which definition a reference is bound to when the executable has one: that of
the executable, unless `sloader_libc_map` has the name. -/

variable {host : Host} {loader next : DynLoader} {main : ELFBinary} {rest : List ELFBinary} {symbol : Elf64Sym}
  {memory : Memory} {name : CString}

theorem bindingAddr_executable
    (defined : (main.symtabs.find? fun s => main.nameIs memory name s && s.isDefined) = some symbol) :
    bindingAddr host memory (main :: rest) name =
      some ((host.libcMap name).getD (symbol.stValue + main.baseAddr)) := by
  have first : firstNamed memory name Elf64Sym.isDefined (symbolTable (main :: rest)) = some (main, symbol) := by
    rw [symbolTable_cons, firstNamed, List.find?_append, List.find?_map]
    simp only [Function.comp_def, defined]
    rfl
  cases mapped : host.libcMap name with
  | none => simp [bindingAddr, mapped, definition, first]
  | some address => simp [bindingAddr, mapped]

/-- The entries that a call processes are recorded after those of earlier calls. -/
theorem DynLoader.relocate_records (ran : loader.relocate host = .ok next) :
    ∃ records, next.processed = loader.processed ++ records ∧
      records.map Processed.place = loader.work.map Item.place ∧
      ∀ record ∈ records, record.scope = loader.binaries.length ∧ record.Of host loader.binaries := by
  obtain ⟨records, passed, same⟩ := DynLoader.relocate_pass ran
  refine ⟨records, by rw [same], pass_places passed, ?_⟩
  exact pass_records passed fun item member => DynLoader.mem_work member

/-- Every reference to a name that the executable defines is bound to its
definition, or to the address in libc's map if that has the name.  So a variable
that is copied into the executable is seen there by every binary. -/
theorem relocate_binds_executable (binaries : loader.binaries = main :: rest)
    (ran : loader.relocate host = .ok next) :
    ∃ records, next.processed = loader.processed ++ records ∧
      ∀ record ∈ records, record.rela.rType.isAddress = true → ∀ symbol,
        (main.symtabs.find? fun s => main.nameIs record.memory record.name s && s.isDefined) = some symbol →
        record.Binds loader.binaries ((host.libcMap record.name).getD (symbol.stValue + main.baseAddr)) ∧
        ∀ copy ∈ main.entries, copy.rType = .copy → main.symtabs[copy.rSym]? = some symbol →
          symbol.stValue = copy.rOffset → host.libcMap record.name = none →
          record.Binds loader.binaries (main.target copy) := by
  obtain ⟨records, processed, _, sound⟩ := DynLoader.relocate_records ran
  refine ⟨records, processed, ?_⟩
  intro record member isAddress symbol defined
  obtain ⟨scope, isRecord⟩ := sound record member
  have bound := @bindingAddr_executable host main rest symbol record.memory record.name defined
  rw [← binaries, ← List.take_length (l := loader.binaries), ← scope] at bound
  have binds := isRecord.binds isAddress bound
  refine ⟨binds, ?_⟩
  intro copy _ _ _ place unmapped
  rw [unmapped, Option.getD_none, place, BitVec.add_comm] at binds
  exact binds

/-- An executable into which `environ` and `x` are copied, and a library with a
`GLOB_DAT` entry for each.  Libc has `environ`. -/
def copiedHost : Host :=
  -- the strings are "a", "x" and "environ", at 2, 4 and 8
  let strings : List (BitVec 64) := [0x7800610000, 0x6e6f7269766e65]
  let executable : Sample.Object :=
    { data := [0, 0], strings, needed := [2]
      symbols := [0, 0, 0, 0x1001100000008, 232, 8, 0x1001100000004, 240, 8]
      relas := [232, 0x100000005, 0, 240, 0x200000005, 0] }
  let library : Sample.Object :=
    { data := [0, 0, 7], strings, symbols := [0, 0, 0, 0x1100000008, 0, 8, 0x1001100000004, 248, 8]
      relas := [232, 0x100000006, 0, 240, 0x200000006, 0] }
  Sample.host [(ascii "m", executable.file), (ascii "a", library.file)] fun name =>
    if name = ascii "environ" then some 0x7f0000001000 else none

@[irreducible] def copiedLoader : DynLoader :=
  Sample.started copiedHost (ascii "/bin/m")

theorem copiedLoader_facts :
    (copiedLoader.relocate copiedHost).toOption.map (fun next => decide (
      copiedLoader.processed.length = 0 ∧ copiedLoader.binaries.length = 2 ∧
      (next.processed.map fun record => (record.rela.rType, record.name, record.write)) =
        [(.copy, ascii "environ", .copy 0x14000e8 0x7f0000001000 8), (.copy, ascii "x", .copy 0x14000f0 0x18000f8 8),
          (.globDat, ascii "environ", .word 0x18000e8 0x7f0000001000),
          (.globDat, ascii "x", .word 0x18000f0 0x14000f0)] ∧
      ∀ main ∈ copiedLoader.binaries[0]?, main.baseAddr = 0x1400000 ∧
        main.entries = [⟨232, 0x100000005, 0⟩, ⟨240, 0x200000005, 0⟩] ∧
        main.symtabs[2]? = some ⟨4, 0x11, 1, 240, 8⟩ ∧
        (∀ record ∈ next.processed[2]?,
          (main.symtabs.find? fun s => main.nameIs record.memory record.name s && s.isDefined) =
            some ⟨8, 0x11, 1, 232, 8⟩) ∧
        ∀ record ∈ next.processed[3]?,
          (main.symtabs.find? fun s => main.nameIs record.memory record.name s && s.isDefined) =
            some ⟨4, 0x11, 1, 240, 8⟩)) = some true := by
  decide +kernel

/-- The library's two entries, and what the executable defines for them. -/
theorem copiedLoader_entries :
    ∃ next main library environ x, copiedLoader.relocate copiedHost = .ok next ∧
      copiedLoader.processed = [] ∧ copiedLoader.binaries = [main, library] ∧ main.baseAddr = 0x1400000 ∧
      main.entries = [⟨232, 0x100000005, 0⟩, ⟨240, 0x200000005, 0⟩] ∧
      main.symtabs[2]? = some ⟨4, 0x11, 1, 240, 8⟩ ∧ environ ∈ next.processed ∧ x ∈ next.processed ∧
      (environ.rela.rType, environ.name, environ.write) =
        (.globDat, ascii "environ", .word 0x18000e8 0x7f0000001000) ∧
      (x.rela.rType, x.name, x.write) = (.globDat, ascii "x", .word 0x18000f0 0x14000f0) ∧
      (main.symtabs.find? fun s => main.nameIs environ.memory environ.name s && s.isDefined) =
        some ⟨8, 0x11, 1, 232, 8⟩ ∧
      (main.symtabs.find? fun s => main.nameIs x.memory x.name s && s.isDefined) = some ⟨4, 0x11, 1, 240, 8⟩ := by
  obtain ⟨next, ran, checked⟩ := Option.map_eq_some_iff.mp copiedLoader_facts
  obtain ⟨none, two, writes, symbols⟩ := of_decide_eq_true checked
  obtain ⟨main, library, binaries⟩ := List.length_eq_two.mp two
  have third := congrArg (·[2]?) writes
  have fourth := congrArg (·[3]?) writes
  rw [List.getElem?_map, List.getElem?_cons_succ, List.getElem?_cons_succ, List.getElem?_cons_zero,
    Option.map_eq_some_iff] at third
  rw [List.getElem?_map, List.getElem?_cons_succ, List.getElem?_cons_succ, List.getElem?_cons_succ,
    List.getElem?_cons_zero, Option.map_eq_some_iff] at fourth
  obtain ⟨environ, environAt, isEnviron⟩ := third
  obtain ⟨x, xAt, isX⟩ := fourth
  obtain ⟨base, entries, symbol, forEnviron, forX⟩ := symbols main (by rw [binaries]; rfl)
  exact ⟨next, main, library, environ, x, eq_ok_of_toOption ran, List.length_eq_zero_iff.mp none, binaries, base,
    entries, symbol, List.mem_of_getElem? environAt, List.mem_of_getElem? xAt, isEnviron, isX,
    forEnviron environ environAt, forX x xAt⟩

theorem relocate_binds_executable_copied :
    ∃ (next : DynLoader) (main : ELFBinary) (record : Processed) (copy : Elf64Rela),
      copiedLoader.relocate copiedHost = .ok next ∧ record ∈ next.processed ∧
      copy ∈ main.entries ∧ copy.rType = .copy ∧ main.target copy = 0x14000f0 ∧
      record.Binds copiedLoader.binaries (main.target copy) := by
  obtain ⟨next, main, library, _, x, ran, none, binaries, base, entries, symbol, _, member, _, isX, _, defined⟩ :=
    copiedLoader_entries
  obtain ⟨records, processed, bound⟩ := relocate_binds_executable binaries ran
  rw [none, List.nil_append] at processed
  rw [processed] at member
  simp only [Prod.mk.injEq] at isX
  have copyAt : (⟨240, 0x200000005, 0⟩ : Elf64Rela) ∈ main.entries := by simp [entries]
  have binds := (bound x member (by rw [isX.1]; rfl) _ defined).2 _ copyAt (by decide) symbol rfl
    (by rw [isX.2.1]; decide)
  refine ⟨next, main, x, _, ran, processed ▸ member, copyAt, by decide, ?_, binds⟩
  rw [ELFBinary.target, base]
  decide

/-- The library's `environ` is libc's, not the executable's copy. -/
theorem relocate_misses_executable :
    ∃ next main record symbol, copiedLoader.relocate copiedHost = .ok next ∧
      copiedLoader.binaries[0]? = some main ∧ record ∈ next.processed ∧ record.rela.rType = .globDat ∧
      record.name = ascii "environ" ∧
      (main.symtabs.find? fun s => main.nameIs record.memory record.name s && s.isDefined) = some symbol ∧
      symbol.stValue + main.baseAddr = 0x14000e8 ∧ record.write = .word 0x18000e8 0x7f0000001000 ∧
      ¬ record.Binds copiedLoader.binaries (symbol.stValue + main.baseAddr) := by
  obtain ⟨next, main, library, environ, _, ran, _, binaries, base, _, _, member, _, isEnviron, _, defined, _⟩ :=
    copiedLoader_entries
  simp only [Prod.mk.injEq] at isEnviron
  have address : (232 : Elf64Addr) + main.baseAddr = 0x14000e8 := by
    rw [base]
    decide
  refine ⟨next, main, environ, _, ran, by rw [binaries]; rfl, member, isEnviron.1, isEnviron.2.1, defined, address,
    isEnviron.2.2, ?_⟩
  intro ⟨_, _, stored⟩
  simp only [isEnviron.2.2, isEnviron.1, reduceCtorEq, if_false, Write.word.injEq, address] at stored
  exact absurd stored.2 (by decide)

end Sloader
