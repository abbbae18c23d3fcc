import Sloader.Binary.Symtabs
import Sloader.Data.Records

namespace Sloader

open Data

/-! The bytes that `ParseDynamic` reads.  Two memories that agree on them give the
same binary. -/

section Records

open Bytes

theorem Elf64Dyn.read_isRecord : IsRecord Elf64Dyn.read sizeofDyn := by
  intro left right start agree
  have tag := @Agree.load64 left right start sizeofDyn 0 agree (by decide)
  have value : left.load64 (start + 8) = right.load64 (start + 8) := agree.load64 (by decide)
  rw [BitVec.add_zero] at tag
  simp only [Elf64Dyn.read, tag, value]

theorem Elf64Sym.read_isRecord : IsRecord Elf64Sym.read sizeofSym := by
  intro left right start agree
  have name := @Agree.load32 left right start sizeofSym 0 agree (by decide)
  have info : left (start + 4) = right (start + 4) := agree.byte (by decide)
  have index : left.load16 (start + 6) = right.load16 (start + 6) := agree.load16 (by decide)
  have value : left.load64 (start + 8) = right.load64 (start + 8) := agree.load64 (by decide)
  have size : left.load64 (start + 16) = right.load64 (start + 16) := agree.load64 (by decide)
  rw [BitVec.add_zero] at name
  simp only [Elf64Sym.read, name, info, index, value, size]

theorem Elf64Rela.read_isRecord : IsRecord Elf64Rela.read sizeofRela := by
  intro left right start agree
  have place := @Agree.load64 left right start sizeofRela 0 agree (by decide)
  have info : left.load64 (start + 8) = right.load64 (start + 8) := agree.load64 (by decide)
  have addend : left.load64 (start + 16) = right.load64 (start + 16) := agree.load64 (by decide)
  rw [BitVec.add_zero] at place
  simp only [Elf64Rela.read, place, info, addend]

theorem readArray_agree {α : Type} {read : Bytes → Address → α} {left right : Bytes} {start : Address}
    {size count : Nat} (isRecord : IsRecord read size) (agree : Agree left right start (size * count)) :
    readArray (read left) start size count = readArray (read right) start size count := by
  apply List.map_congr_left
  intro index member
  apply isRecord
  apply agree.part
  have within := List.mem_range.mp member
  calc size * index + size = size * (index + 1) := (Nat.mul_succ size index).symm
    _ ≤ size * count := Nat.mul_le_mul_left size within

end Records

namespace ELFBinary

/-- Where the binary that is parsed says that its tables are, and the strings that
its entries and its symbols name.  The walk over the symbols also reads the entry
that it stops at. -/
inductive Footprint (binary : ELFBinary) (memory : Memory) (address : Address) : Prop where
  | dynamic (inside : Inside (binary.baseAddr + binary.fileDynamic.pVaddr) binary.fileDynamic.pFilesz.toNat address)
  | text {dyn : Elf64Dyn} (member : dyn ∈ binary.dynamicEntries memory.bytes)
      (named : dyn.dTag = .needed ∨ dyn.dTag = .runpath ∨ dyn.dTag = .rpath)
      (running : memory.bytes.InCString (binary.strtab + dyn.dVal) address)
  | relas (inside : Inside binary.rela (sizeofRela * binary.relas.length) address)
  | pltrelas (inside : Inside binary.jmprel (sizeofRela * binary.pltrelas.length) address)
  | symtabs (present : binary.symtab ≠ 0)
      (inside : Inside binary.symtab (sizeofSym * (binary.symtabs.length + 1)) address)
  | name {symbol : Elf64Sym} (member : symbol ∈ binary.symtabs)
      (running : memory.bytes.InCString (symbol.stName.setWidth 64 + binary.strtab) address)

variable {left right : Memory} {binary next opened parsed : ELFBinary} {dyn : Elf64Dyn} {entries : List Elf64Dyn}

theorem dynamicEntries_agree (agree : Bytes.Agree left.bytes right.bytes
      (binary.baseAddr + binary.fileDynamic.pVaddr) binary.fileDynamic.pFilesz.toNat) :
    binary.dynamicEntries left.bytes = binary.dynamicEntries right.bytes := by
  apply readArray_agree Elf64Dyn.read_isRecord
  intro address inside
  exact agree address (Nat.lt_of_lt_of_le inside (Nat.mul_div_le _ _))

theorem string_agree {start : Address} (same : left.bytes.cstring start = right.bytes.cstring start) :
    left.string start = right.string start := by
  rw [Memory.string, Memory.string, same]

theorem cstring_agree {start : Address}
    (agree : ∀ address, left.bytes.InCString start address → left.bytes address = right.bytes address) :
    left.bytes.cstring start = right.bytes.cstring start := by
  have same := @Bytes.cstring_congr left.bytes right.bytes start fun address running => (agree address running).symm
  exact same.symm

/-- The strings that the entries name are the same in both memories. -/
def TextsAgree (left right : Memory) (strtab : Address) (entries : List Elf64Dyn) : Prop :=
  ∀ dyn ∈ entries, dyn.dTag = .needed ∨ dyn.dTag = .runpath ∨ dyn.dTag = .rpath →
    left.bytes.cstring (strtab + dyn.dVal) = right.bytes.cstring (strtab + dyn.dVal)

theorem parseTag_agree (same : dyn.dTag = .needed ∨ dyn.dTag = .runpath ∨ dyn.dTag = .rpath →
      left.bytes.cstring (binary.strtab + dyn.dVal) = right.bytes.cstring (binary.strtab + dyn.dVal)) :
    parseTag left binary dyn = parseTag right binary dyn := by
  cases tag : dyn.dTag <;> simp only [parseTag, tag]
  case needed | runpath | rpath =>
    have read := string_agree (same (by simp [tag]))
    rw [read]

theorem foldlM_parseTag_agree {strtab : Address} (table : binary.strtab = strtab)
    (agree : TextsAgree left right strtab entries) :
    entries.foldlM (parseTag left) binary = entries.foldlM (parseTag right) binary := by
  induction entries generalizing binary with
  | nil => rw [List.foldlM_nil, List.foldlM_nil]
  | cons dyn rest ih =>
      have first : parseTag left binary dyn = parseTag right binary dyn := by
        apply parseTag_agree
        rw [table]
        exact agree dyn List.mem_cons_self
      rw [List.foldlM_cons, List.foldlM_cons, first]
      cases parsed : parseTag right binary dyn with
      | error reason => simp only [bind, Except.bind]
      | ok next =>
          obtain ⟨_, rfl⟩ := parseTag_eq_ok.mp parsed
          simp only [bind, Except.bind]
          exact ih table fun other member => agree other (List.mem_cons_of_mem dyn member)

theorem parseRelas_agree (ran : binary.parseRelas left = .ok next)
    (agree : Bytes.Agree left.bytes right.bytes next.rela (sizeofRela * next.relas.length)) :
    binary.parseRelas right = .ok next := by
  unfold parseRelas at ran ⊢
  split at ran
  · rename_i absent
    rw [if_pos absent]
    exact ran
  · rename_i present
    rw [if_neg present]
    simp only [bind_eq_ok, pure_eq_ok] at ran ⊢
    obtain ⟨count, counted, rfl⟩ := ran
    refine ⟨count, counted, ?_⟩
    rw [readArray_agree Elf64Rela.read_isRecord]
    intro address inside
    refine (agree address (Nat.lt_of_lt_of_le inside ?_)).symm
    simp [readArray, Nat.mul_add]

theorem parsePltrelas_agree (ran : binary.parsePltrelas left = .ok next)
    (agree : Bytes.Agree left.bytes right.bytes next.jmprel (sizeofRela * next.pltrelas.length)) :
    binary.parsePltrelas right = .ok next := by
  unfold parsePltrelas at ran ⊢
  split at ran
  · rename_i absent
    rw [if_pos absent]
    exact ran
  · rename_i present
    rw [if_neg present]
    simp only [bind_eq_ok, pure_eq_ok] at ran ⊢
    obtain ⟨count, counted, _, checked, rfl⟩ := ran
    refine ⟨count, counted, (), checked, ?_⟩
    rw [readArray_agree Elf64Rela.read_isRecord]
    intro address inside
    refine (agree address (Nat.lt_of_lt_of_le inside ?_)).symm
    simp [readArray, Nat.mul_add]

theorem scanSymtab_agree {strsz : Elf64Xword} {start : Address} {fuel : Nat} {rest : List Elf64Sym}
    (scanned : scanSymtab left.bytes strsz fuel start = some rest)
    (agree : Bytes.Agree left.bytes right.bytes start (sizeofSym * (rest.length + 1))) :
    scanSymtab right.bytes strsz fuel start = some rest := by
  obtain ⟨count, bound, rfl, names, ends⟩ := scanSymtab_eq_some.mp scanned
  rw [symbolsAt_length] at agree
  have table : symbolsAt left.bytes start count = symbolsAt right.bytes start count := by
    apply readArray_agree Elf64Sym.read_isRecord
    intro address inside
    exact agree address (Nat.lt_of_lt_of_le inside (Nat.mul_le_mul_left _ (Nat.le_succ count)))
  have last : symbolAfter left.bytes start count = symbolAfter right.bytes start count :=
    Elf64Sym.read_isRecord _ _ _ (agree.part (Nat.le_of_eq (Nat.mul_succ sizeofSym count).symm))
  rw [table] at names ⊢
  rw [last] at ends
  exact scanSymtab_eq_some.mpr ⟨count, bound, rfl, names, ends⟩

theorem forM_showSym_agree {symbols : List Elf64Sym}
    (names : ∀ symbol ∈ symbols, left.bytes.cstring (symbol.stName.setWidth 64 + binary.strtab) =
      right.bytes.cstring (symbol.stName.setWidth 64 + binary.strtab)) :
    symbols.forM (binary.showSym left) = symbols.forM (binary.showSym right) := by
  simp only [List.forM_eq_forM]
  induction symbols with
  | nil => rw [List.forM_nil, List.forM_nil]
  | cons symbol rest ih =>
      have own : binary.showSym left symbol = binary.showSym right symbol := by
        simp only [showSym, symbolName, string_agree (names symbol List.mem_cons_self)]
      rw [List.forM_cons, List.forM_cons, own, ih fun other member => names other (List.mem_cons_of_mem symbol member)]

theorem parseSymtabs_agree (ran : binary.parseSymtabs left = .ok next)
    (agree : next.symtab ≠ 0 → Bytes.Agree left.bytes right.bytes next.symtab (sizeofSym * (next.symtabs.length + 1)))
    (names : ∀ symbol ∈ next.symtabs, left.bytes.cstring (symbol.stName.setWidth 64 + next.strtab) =
      right.bytes.cstring (symbol.stName.setWidth 64 + next.strtab)) :
    binary.parseSymtabs right = .ok next := by
  unfold parseSymtabs at ran ⊢
  split at ran
  · rename_i absent
    rw [if_pos absent]
    exact ran
  · rename_i present
    rw [if_neg present]
    dsimp only at ran ⊢
    split at ran
    · contradiction
    · rename_i rest scanned
      simp only [bind_eq_ok, pure_eq_ok] at ran
      obtain ⟨_, shown, rfl⟩ := ran
      have table := agree present
      have first : Elf64Sym.read left.bytes binary.symtab = Elf64Sym.read right.bytes binary.symtab := by
        apply Elf64Sym.read_isRecord
        intro address inside
        exact table address (Nat.lt_of_lt_of_le inside (Nat.le_mul_of_pos_right _ (Nat.succ_pos _)))
      have walked := scanSymtab_agree scanned (table.part (by
        simp only [List.length_append, List.length_cons, Nat.mul_add]
        omega))
      rw [walked, ← first]
      simp only [bind_eq_ok, pure_eq_ok]
      exact ⟨(), forM_showSym_agree names ▸ shown, trivial⟩

theorem parseSymtabs_updates (ran : binary.parseSymtabs left = .ok next) :
    ∃ symtabs, next = { binary with symtabs } := by
  unfold parseSymtabs at ran
  split at ran
  · cases ran
    exact ⟨binary.symtabs, rfl⟩
  · dsimp only at ran
    split at ran
    · contradiction
    · simp only [bind_eq_ok, pure_eq_ok] at ran
      obtain ⟨_, _, rfl⟩ := ran
      exact ⟨_, rfl⟩

theorem parseDynamic_footprint (ran : opened.parseDynamic left = .ok parsed)
    (agree : ∀ address, parsed.Footprint left address → left.bytes address = right.bytes address) :
    opened.parseDynamic right = .ok parsed := by
  have image := parseDynamic_sameImage ran
  have array : parsed.dynamicEntries left.bytes = opened.dynamicEntries left.bytes := by
    simp only [dynamicEntries, image.baseAddr, image.fileDynamic]
  have entries : opened.dynamicEntries left.bytes = opened.dynamicEntries right.bytes := by
    apply dynamicEntries_agree
    rw [← image.baseAddr, ← image.fileDynamic]
    exact fun address inside => agree address (.dynamic inside)
  simp only [parseDynamic, bind_eq_ok, check_eq_ok] at ran ⊢
  obtain ⟨_, based, _, sized, _, strings, tags, first, relas, second, pltrelas, third, fourth⟩ := ran
  obtain ⟨_, sameTags⟩ := foldlM_parseTag_eq_ok.mp first
  obtain ⟨_, sameRelas⟩ := parseRelas_updates second
  obtain ⟨_, samePltrelas⟩ := parsePltrelas_updates third
  obtain ⟨_, sameSymtabs⟩ := parseSymtabs_updates fourth
  have strtab : ((opened.dynamicEntries left.bytes).foldl parseStrtab opened).strtab = parsed.strtab := by
    rw [sameSymtabs, samePltrelas, sameRelas, sameTags]
    rfl
  have texts : TextsAgree left right parsed.strtab (opened.dynamicEntries left.bytes) := by
    intro dyn member named
    rw [← array] at member
    apply cstring_agree
    intro address running
    exact agree address (Footprint.text member named running)
  refine ⟨(), based, (), sized, (), entries ▸ strings, tags, ?_, relas, ?_, pltrelas, ?_, ?_⟩
  · rw [← entries, ← foldlM_parseTag_agree strtab texts]
    exact first
  · apply parseRelas_agree second
    have rela : relas.rela = parsed.rela := by rw [sameSymtabs, samePltrelas]
    have table : relas.relas = parsed.relas := by rw [sameSymtabs, samePltrelas]
    rw [rela, table]
    exact fun address inside => agree address (.relas inside)
  · apply parsePltrelas_agree third
    have jmprel : pltrelas.jmprel = parsed.jmprel := by rw [sameSymtabs]
    have table : pltrelas.pltrelas = parsed.pltrelas := by rw [sameSymtabs]
    rw [jmprel, table]
    exact fun address inside => agree address (.pltrelas inside)
  · apply parseSymtabs_agree fourth
    · exact fun present address inside => agree address (.symtabs present inside)
    · intro symbol member
      apply cstring_agree
      intro address running
      exact agree address (.name member running)

end ELFBinary

end Sloader
