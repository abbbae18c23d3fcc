import Sloader.Loader
import Mathlib.Data.List.Find

namespace Sloader

open Data

/-! Looking for symbols: `SearchSym` and `TLSSymOffset` as the source computes
them, and what they find in terms of the first entry of one long table. -/

def searchTable (memory : Memory) (binary : ELFBinary) (name : CString) (accept : Elf64Sym → Bool) :
    Nat → List Elf64Sym → Except Stop (Option Nat)
  | _, [] => .ok none
  | index, symbol :: rest => do
      let n ← binary.symbolName memory symbol
      if n = name && accept symbol then return some index
      else searchTable memory binary name accept (index + 1) rest

def searchPass (memory : Memory) (name : CString) (accept : Elf64Sym → Bool) :
    Nat → List ELFBinary → Except Stop (Option (Nat × Nat))
  | _, [] => .ok none
  | index, binary :: rest => do
      match ← searchTable memory binary name accept 0 binary.symtabs with
      | some symbolIndex => return some (index, symbolIndex)
      | none => searchPass memory name accept (index + 1) rest

def searchSym (memory : Memory) (binaries : List ELFBinary) (name : CString) (skipMain : Bool) :
    Except Stop (Option (Nat × Nat)) := do
  let first := if skipMain then 1 else 0
  match ← searchPass memory name Elf64Sym.isDefined first (binaries.drop first) with
  | some found => return some found
  | none => searchPass memory name Elf64Sym.isWeakUndef first (binaries.drop first)

def symbolAt (binaries : List ELFBinary) (place : Nat × Nat) : Option (ELFBinary × Elf64Sym) := do
  let binary ← binaries[place.1]?
  let symbol ← binary.symtabs[place.2]?
  return (binary, symbol)

/-- The address that a `GLOB_DAT`, `JUMP_SLOT` or `64` entry is bound to.  The
search comes first, even where the name is one of `sloader_libc_map`. -/
def symbolAddr (host : Host) (memory : Memory) (binaries : List ELFBinary) (name : CString) :
    Except Stop (Option Elf64Addr) := do
  let opt ← searchSym memory binaries name false
  match host.libcMap name, opt with
  | some address, _ => return some address
  | none, some (binIndex, symIndex) =>
      match binaries[binIndex]? with
      | some binary => return some (← binary.getSymbolAddr symIndex)
      | none => .error .segmentationFault
  | none, none => return none

def tlsSymOffsetFrom (memory : Memory) (name : CString) :
    Elf64Addr → List ELFBinary → Except Stop (Option Elf64Addr)
  | _, [] => .ok none
  | offset, binary :: rest => do
      match ← searchTable memory binary name Elf64Sym.isTls 0 binary.symtabs with
      | some symbolIndex =>
          match binary.symtabs[symbolIndex]? with
          | some symbol => return some (offset - binary.fileTls.pMemsz + symbol.stValue)
          | none => .error .segmentationFault
      | none =>
          let offset := if binary.hasTls then offset - binary.fileTls.pMemsz else offset
          tlsSymOffsetFrom memory name offset rest

def tlsSymOffset (host : Host) (memory : Memory) (binaries : List ELFBinary) (name : CString) :
    Except Stop Elf64Addr := do
  match ← tlsSymOffsetFrom memory name 0 binaries with
  | some offset => return offset
  | none =>
      -- variables of libc such as errno
      match host.libcTlsVariables name with
      | some address => return host.tlsBlock + 4096 - address
      | none => .error .abort

def symbolTable (binaries : List ELFBinary) : List (ELFBinary × Elf64Sym) :=
  binaries.flatMap fun binary => binary.symtabs.map (binary, ·)

def ELFBinary.nameIs (binary : ELFBinary) (memory : Memory) (name : CString) (symbol : Elf64Sym) : Bool :=
  decide (memory.bytes.cstring (symbol.stName.setWidth 64 + binary.strtab) = some name)

def firstNamed (memory : Memory) (name : CString) (accept : Elf64Sym → Bool)
    (symbols : List (ELFBinary × Elf64Sym)) : Option (ELFBinary × Elf64Sym) :=
  symbols.find? fun entry => entry.1.nameIs memory name entry.2 && accept entry.2

/-- The first definition, or else the first weak undefined entry. -/
def definition (memory : Memory) (name : CString) (symbols : List (ELFBinary × Elf64Sym)) :
    Option (ELFBinary × Elf64Sym) :=
  firstNamed memory name Elf64Sym.isDefined symbols <|> firstNamed memory name Elf64Sym.isWeakUndef symbols

/-- `A(name)`: the address in libc's map, or else that of the definition. -/
def bindingAddr (host : Host) (memory : Memory) (binaries : List ELFBinary) (name : CString) :
    Option Elf64Addr :=
  host.libcMap name <|>
    (definition memory name (symbolTable binaries)).map fun entry => entry.2.stValue + entry.1.baseAddr

variable {host : Host} {memory : Memory} {binary : ELFBinary} {binaries : List ELFBinary} {name text : CString}
  {accept : Elf64Sym → Bool}

theorem symbolTable_append (left right : List ELFBinary) :
    symbolTable (left ++ right) = symbolTable left ++ symbolTable right :=
  List.flatMap_append

theorem symbolTable_cons (binary : ELFBinary) (rest : List ELFBinary) :
    symbolTable (binary :: rest) = binary.symtabs.map (binary, ·) ++ symbolTable rest :=
  List.flatMap_cons

/-- Some string in memory ends, and hence every one does. -/
def Memory.Terminated (memory : Memory) : Prop :=
  ∀ start, (memory.bytes.cstring start).isSome = true

theorem terminated_of_string {start : Address} (read : memory.string start = .ok text) : memory.Terminated := by
  unfold Memory.string at read
  split at read
  · rename_i found
    intro other
    exact Bytes.cstring_isSome found
  · contradiction

theorem Memory.Terminated.symbolName (terminated : memory.Terminated) (binary : ELFBinary) (symbol : Elf64Sym) :
    ∃ n, binary.symbolName memory symbol = .ok n ∧
      memory.bytes.cstring (symbol.stName.setWidth 64 + binary.strtab) = some n := by
  obtain ⟨n, read⟩ := Option.isSome_iff_exists.mp
    (terminated (symbol.stName.setWidth 64 + binary.strtab))
  refine ⟨n, ?_, read⟩
  simp only [ELFBinary.symbolName, Memory.string, read]

theorem searchTable_spec (terminated : memory.Terminated) (earlier symbols : List Elf64Sym) :
    ∃ found, searchTable memory binary name accept earlier.length symbols = .ok found ∧
      found.map (fun index => (earlier ++ symbols)[index]?) =
        (symbols.find? fun symbol => binary.nameIs memory name symbol && accept symbol).map some := by
  induction symbols generalizing earlier with
  | nil => exact ⟨none, rfl, rfl⟩
  | cons symbol rest ih =>
      obtain ⟨n, named, read⟩ := terminated.symbolName binary symbol
      have same : (n = name && accept symbol) = (binary.nameIs memory name symbol && accept symbol) := by
        simp [ELFBinary.nameIs, read]
      simp only [searchTable, named, bind, Except.bind, same, List.find?_cons]
      cases binary.nameIs memory name symbol && accept symbol with
      | true => exact ⟨some earlier.length, rfl, by simp⟩
      | false =>
          obtain ⟨found, searched, place⟩ := ih (earlier ++ [symbol])
          rw [List.length_append, List.length_singleton] at searched
          rw [List.append_assoc, List.singleton_append] at place
          exact ⟨found, by simpa using searched, place⟩

theorem searchPass_spec (terminated : memory.Terminated) (earlier binaries : List ELFBinary) :
    ∃ found, searchPass memory name accept earlier.length binaries = .ok found ∧
      found.map (symbolAt (earlier ++ binaries)) =
        (firstNamed memory name accept (symbolTable binaries)).map some := by
  induction binaries generalizing earlier with
  | nil => exact ⟨none, rfl, rfl⟩
  | cons binary rest ih =>
      obtain ⟨inTable, searched, place⟩ := @searchTable_spec memory binary name accept terminated [] binary.symtabs
      have split : firstNamed memory name accept (symbolTable (binary :: rest)) =
          ((binary.symtabs.find? fun symbol => binary.nameIs memory name symbol && accept symbol).map
            (binary, ·)).or (firstNamed memory name accept (symbolTable rest)) := by
        rw [firstNamed, symbolTable_cons, List.find?_append, List.find?_map]
        rfl
      simp only [searchPass, List.length_nil, List.nil_append] at searched place ⊢
      simp only [searched, bind, Except.bind, split]
      cases inTable with
      | some index =>
          obtain ⟨symbol, found, at_⟩ : ∃ symbol,
              binary.symtabs.find? (fun symbol => binary.nameIs memory name symbol && accept symbol) = some symbol ∧
                binary.symtabs[index]? = some symbol := by
            cases first : binary.symtabs.find? fun symbol => binary.nameIs memory name symbol && accept symbol with
            | none => simp [first] at place
            | some symbol => exact ⟨symbol, rfl, by simpa [first] using place⟩
          refine ⟨some (earlier.length, index), rfl, ?_⟩
          simp [found, symbolAt, at_]
      | none =>
          have missing :
              binary.symtabs.find? (fun symbol => binary.nameIs memory name symbol && accept symbol) = none := by
            simpa using place.symm
          obtain ⟨found, remaining, place⟩ := ih (earlier ++ [binary])
          rw [List.length_append, List.length_singleton] at remaining
          rw [List.append_assoc, List.singleton_append] at place
          exact ⟨found, remaining, by simpa [missing] using place⟩

theorem searchSym_spec (terminated : memory.Terminated) (name : CString) (skipMain : Bool) :
    ∃ found, searchSym memory binaries name skipMain = .ok found ∧
      found.map (symbolAt binaries) =
        (definition memory name (symbolTable (binaries.drop (if skipMain then 1 else 0)))).map some := by
  by_cases short : binaries.length < (if skipMain then 1 else 0)
  · -- an empty list has no main binary to skip
    have none : binaries = [] := List.length_eq_zero_iff.mp (by split at short <;> omega)
    subst none
    exact ⟨none, by simp [searchSym, searchPass, bind, Except.bind], by simp [definition, firstNamed, symbolTable]⟩
  · generalize first : (if skipMain then 1 else 0) = skipped at short
    have split : binaries.take skipped ++ binaries.drop skipped = binaries := List.take_append_drop skipped binaries
    have length : (binaries.take skipped).length = skipped := by
      rw [List.length_take]
      omega
    obtain ⟨defined, passed, place⟩ := @searchPass_spec memory name Elf64Sym.isDefined terminated
      (binaries.take skipped) (binaries.drop skipped)
    rw [length] at passed
    rw [split] at place
    cases defined with
    | some found =>
        refine ⟨some found, by simp [searchSym, first, passed, bind, Except.bind], ?_⟩
        cases hit : firstNamed memory name Elf64Sym.isDefined (symbolTable (binaries.drop skipped)) with
        | none => simp [hit] at place
        | some entry => simpa [definition, hit] using place
    | none =>
        have missing : firstNamed memory name Elf64Sym.isDefined (symbolTable (binaries.drop skipped)) = none := by
          simpa using place.symm
        obtain ⟨weak, passedWeak, placeWeak⟩ := @searchPass_spec memory name Elf64Sym.isWeakUndef terminated
          (binaries.take skipped) (binaries.drop skipped)
        rw [length] at passedWeak
        rw [split] at placeWeak
        exact ⟨weak, by simp [searchSym, first, passed, bind, Except.bind, passedWeak],
          by simpa [definition, missing] using placeWeak⟩

/-- There is no name to read, or every name can be read. -/
def Memory.Readable (memory : Memory) (binaries : List ELFBinary) : Prop :=
  symbolTable binaries = [] ∨ memory.Terminated

theorem readable_of_searchPass {index : Nat} {found : Option (Nat × Nat)}
    (searched : searchPass memory name accept index binaries = .ok found) : memory.Readable binaries := by
  induction binaries generalizing index with
  | nil => exact .inl rfl
  | cons binary rest ih =>
      simp only [searchPass, bind_eq_ok] at searched
      obtain ⟨inTable, table, remaining⟩ := searched
      cases symbols : binary.symtabs with
      | cons symbol others =>
          rw [symbols] at table
          simp only [searchTable, bind_eq_ok] at table
          obtain ⟨n, read, _⟩ := table
          exact .inr (terminated_of_string read)
      | nil =>
          rw [symbols] at table
          cases table
          rw [Memory.Readable, symbolTable_cons, symbols]
          exact ih remaining

theorem searchPass_empty {index : Nat} (empty : symbolTable binaries = []) :
    searchPass memory name accept index binaries = .ok none := by
  induction binaries generalizing index with
  | nil => rfl
  | cons binary rest ih =>
      rw [symbolTable_cons, List.append_eq_nil_iff, List.map_eq_nil_iff] at empty
      simp only [searchPass, empty.1, searchTable, bind, Except.bind]
      exact ih empty.2

theorem readable_of_searchSym {found : Option (Nat × Nat)}
    (searched : searchSym memory binaries name false = .ok found) : memory.Readable binaries := by
  simp only [searchSym, bind_eq_ok, Bool.false_eq_true, if_false, List.drop_zero] at searched
  obtain ⟨first, passed, _⟩ := searched
  exact readable_of_searchPass passed

theorem Memory.Readable.searchSym (readable : memory.Readable binaries) (name : CString) :
    ∃ found, searchSym memory binaries name false = .ok found ∧
      found.map (symbolAt binaries) = (definition memory name (symbolTable binaries)).map some := by
  cases readable with
  | inr terminated => exact @searchSym_spec memory binaries terminated name false
  | inl empty =>
      refine ⟨none, ?_, by simp [empty, definition, firstNamed]⟩
      simp [Sloader.searchSym, searchPass_empty empty, bind, Except.bind]

theorem symbolAt_addr {place : Nat × Nat} {entry : ELFBinary × Elf64Sym}
    (entryAt : symbolAt binaries place = some entry) :
    binaries[place.1]? = some entry.1 ∧
      entry.1.getSymbolAddr place.2 = .ok (entry.2.stValue + entry.1.baseAddr) := by
  simp only [symbolAt, Option.bind_eq_bind, Option.bind_eq_some_iff, Option.pure_def, Option.some.injEq] at entryAt
  obtain ⟨binary, binaryAt, symbol, symbolAt, rfl⟩ := entryAt
  exact ⟨binaryAt, by simp only [ELFBinary.getSymbolAddr, symbolAt]⟩

theorem Memory.Readable.symbolAddr (readable : memory.Readable binaries) (host : Host) (name : CString) :
    symbolAddr host memory binaries name = .ok (bindingAddr host memory binaries name) := by
  obtain ⟨found, searched, place⟩ := readable.searchSym name
  simp only [Sloader.symbolAddr, searched, bind, Except.bind, bindingAddr]
  cases host.libcMap name with
  | some address => rfl
  | none =>
      cases hit : definition memory name (symbolTable binaries) with
      | none =>
          rw [hit, Option.map_none, Option.map_eq_none_iff] at place
          rw [place]
          rfl
      | some entry =>
          rw [hit, Option.map_some] at place
          obtain ⟨index, rfl, entryAt⟩ := Option.map_eq_some_iff.mp place
          obtain ⟨binaryAt, address⟩ := symbolAt_addr entryAt
          simp only [binaryAt, address]
          rfl

theorem symbolAddr_eq (terminated : memory.Terminated) (host : Host) (binaries : List ELFBinary)
    (name : CString) : symbolAddr host memory binaries name = .ok (bindingAddr host memory binaries name) := by
  have readable : memory.Readable binaries := .inr terminated
  exact readable.symbolAddr host name

/-- The symbols of the binaries have the same names in both memories. -/
def SameNames (memory other : Memory) (binaries : List ELFBinary) : Prop :=
  ∀ binary ∈ binaries, ∀ symbol ∈ binary.symtabs,
    other.bytes.cstring (symbol.stName.setWidth 64 + binary.strtab) =
      memory.bytes.cstring (symbol.stName.setWidth 64 + binary.strtab)

section SameNames

variable {other : Memory}

theorem symbolName_congr {symbol : Elf64Sym}
    (same : other.bytes.cstring (symbol.stName.setWidth 64 + binary.strtab) =
      memory.bytes.cstring (symbol.stName.setWidth 64 + binary.strtab)) :
    binary.symbolName other symbol = binary.symbolName memory symbol := by
  simp only [ELFBinary.symbolName, Memory.string, same]

theorem searchTable_congr {index : Nat} {symbols : List Elf64Sym}
    (same : ∀ symbol ∈ symbols, binary.symbolName other symbol = binary.symbolName memory symbol) :
    searchTable other binary name accept index symbols = searchTable memory binary name accept index symbols := by
  induction symbols generalizing index with
  | nil => rfl
  | cons symbol rest ih =>
      have head := same symbol List.mem_cons_self
      have tail := @ih (index + 1) fun later member => same later (List.mem_cons_of_mem symbol member)
      simp only [searchTable, head, tail]

theorem SameNames.table (same : SameNames memory other binaries) (member : binary ∈ binaries) :
    searchTable other binary name accept 0 binary.symtabs = searchTable memory binary name accept 0 binary.symtabs :=
  searchTable_congr fun symbol inTable => symbolName_congr (same binary member symbol inTable)

theorem SameNames.tail {rest : List ELFBinary} (same : SameNames memory other (binary :: rest)) :
    SameNames memory other rest :=
  fun later member => same later (List.mem_cons_of_mem binary member)

theorem SameNames.searchPass {index : Nat} (same : SameNames memory other binaries) :
    searchPass other name accept index binaries = searchPass memory name accept index binaries := by
  induction binaries generalizing index with
  | nil => rfl
  | cons binary rest ih =>
      have head := @SameNames.table memory binary (binary :: rest) name accept other same List.mem_cons_self
      have tail := @ih (index + 1) same.tail
      simp only [Sloader.searchPass, head, tail]

theorem SameNames.searchSym (same : SameNames memory other binaries) (name : CString) (skipMain : Bool) :
    searchSym other binaries name skipMain = searchSym memory binaries name skipMain := by
  have dropped (count : Nat) : SameNames memory other (binaries.drop count) :=
    fun binary member => same binary (List.mem_of_mem_drop member)
  simp only [Sloader.searchSym, (dropped _).searchPass]

theorem SameNames.symbolAddr (same : SameNames memory other binaries) (host : Host) (name : CString) :
    symbolAddr host other binaries name = symbolAddr host memory binaries name := by
  simp only [Sloader.symbolAddr, same.searchSym]

theorem SameNames.tlsSymOffsetFrom {offset : Elf64Addr} (same : SameNames memory other binaries) :
    tlsSymOffsetFrom other name offset binaries = tlsSymOffsetFrom memory name offset binaries := by
  induction binaries generalizing offset with
  | nil => rfl
  | cons binary rest ih =>
      have head := @SameNames.table memory binary (binary :: rest) name Elf64Sym.isTls other same
        List.mem_cons_self
      have tail (offset : Elf64Addr) := @ih offset same.tail
      simp only [Sloader.tlsSymOffsetFrom, head, tail]

theorem SameNames.tlsSymOffset (same : SameNames memory other binaries) (host : Host) (name : CString) :
    tlsSymOffset host other binaries name = tlsSymOffset host memory binaries name := by
  simp only [Sloader.tlsSymOffset, same.tlsSymOffsetFrom]

end SameNames

theorem terminated_of_searchTable {index found : Nat} {symbols : List Elf64Sym}
    (searched : searchTable memory binary name accept index symbols = .ok (some found)) : memory.Terminated := by
  cases symbols with
  | nil => cases searched
  | cons symbol rest =>
      simp only [searchTable, bind_eq_ok] at searched
      obtain ⟨n, read, _⟩ := searched
      exact terminated_of_string read

theorem terminated_of_searchPass {index : Nat} {place : Nat × Nat}
    (searched : searchPass memory name accept index binaries = .ok (some place)) : memory.Terminated := by
  induction binaries generalizing index with
  | nil => cases searched
  | cons binary rest ih =>
      simp only [searchPass, bind_eq_ok] at searched
      obtain ⟨inTable, table, remaining⟩ := searched
      cases inTable with
      | some symbolIndex => exact terminated_of_searchTable table
      | none => exact ih remaining

theorem searchPass_append {index : Nat} {place : Nat × Nat}
    (searched : searchPass memory name accept index binaries = .ok (some place)) (more : List ELFBinary) :
    searchPass memory name accept index (binaries ++ more) = .ok (some place) := by
  induction binaries generalizing index with
  | nil => cases searched
  | cons binary rest ih =>
      simp only [searchPass, List.cons_append, bind_eq_ok] at searched ⊢
      obtain ⟨inTable, table, remaining⟩ := searched
      refine ⟨inTable, table, ?_⟩
      cases inTable with
      | some symbolIndex => exact remaining
      | none => exact ih remaining

theorem searchPass_weak {place : Nat × Nat} {entry : ELFBinary × Elf64Sym} (skipped : List ELFBinary)
    (searched : searchPass memory name Elf64Sym.isWeakUndef skipped.length binaries = .ok (some place))
    (at_ : symbolAt (skipped ++ binaries) place = some entry) : entry.2.isDefined = false := by
  obtain ⟨found, again, hit⟩ := @searchPass_spec memory name Elf64Sym.isWeakUndef (terminated_of_searchPass searched)
    skipped binaries
  rw [searched] at again
  cases again
  rw [Option.map_some, at_] at hit
  obtain ⟨_, first, same⟩ := Option.map_eq_some_iff.mp hit.symm
  cases same
  have accepted := List.find?_some first
  simp only [Bool.and_eq_true, Elf64Sym.isWeakUndef, beq_iff_eq] at accepted
  simp [Elf64Sym.isDefined, accepted.2.1]

theorem searchSym_append {skipMain : Bool} {place : Nat × Nat} {entry : ELFBinary × Elf64Sym}
    (searched : searchSym memory binaries name skipMain = .ok (some place))
    (at_ : symbolAt binaries place = some entry) (defined : entry.2.isDefined = true) (more : List ELFBinary) :
    searchSym memory (binaries ++ more) name skipMain = .ok (some place) := by
  simp only [searchSym, bind_eq_ok] at searched ⊢
  generalize (if skipMain then 1 else 0) = skipped at searched ⊢
  rw [List.drop_append]
  obtain ⟨first, passed, remaining⟩ := searched
  cases first with
  | some found => exact ⟨some found, searchPass_append passed _, remaining⟩
  | none =>
      have nonempty : skipped ≤ binaries.length := by
        by_contra short
        rw [List.drop_of_length_le (by omega)] at remaining
        cases remaining
      have length : (binaries.take skipped).length = skipped := by
        rw [List.length_take]
        omega
      have weak := @searchPass_weak memory (binaries.drop skipped) name place entry (binaries.take skipped)
        (by rwa [length]) (by rwa [List.take_append_drop])
      rw [weak] at defined
      contradiction

theorem SameNames.firstNamed_eq {other : Memory} (same : SameNames memory other binaries) :
    firstNamed other name accept (symbolTable binaries) = firstNamed memory name accept (symbolTable binaries) := by
  apply List.find?_congr
  intro entry member
  obtain ⟨binary, known, inBinary⟩ := List.mem_flatMap.mp member
  obtain ⟨symbol, inTable, rfl⟩ := List.mem_map.mp inBinary
  simp only [ELFBinary.nameIs, same binary known symbol inTable]

theorem SameNames.bindingAddr_append {other : Memory} (same : SameNames memory other binaries)
    (known : host.libcMap name ≠ none ∨
      firstNamed memory name Elf64Sym.isDefined (symbolTable binaries) ≠ none) (more : List ELFBinary) :
    ∃ address, bindingAddr host memory binaries name = some address ∧
      bindingAddr host other (binaries ++ more) name = some address := by
  cases mapped : host.libcMap name with
  | some address => exact ⟨address, by simp [bindingAddr, mapped], by simp [bindingAddr, mapped]⟩
  | none =>
      obtain ⟨entry, first⟩ := Option.ne_none_iff_exists'.mp (known.resolve_left (fun missing => missing mapped))
      have later : firstNamed other name Elf64Sym.isDefined (symbolTable (binaries ++ more)) = some entry := by
        rw [symbolTable_append, firstNamed, List.find?_append]
        have before := (@SameNames.firstNamed_eq memory binaries name Elf64Sym.isDefined other same).trans first
        rw [firstNamed] at before
        rw [before]
        rfl
      exact ⟨entry.2.stValue + entry.1.baseAddr, by simp [bindingAddr, mapped, definition, first],
        by simp [bindingAddr, mapped, definition, later]⟩

end Sloader
