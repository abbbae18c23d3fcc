import Sloader.Tls.Space

namespace Sloader

open Data

/-! The variables that `TPOFF64` entries designate.

An entry designates a thread-local variable by a name that a loaded binary
defines, by a name of libc's, or, where its symbol index is zero, by the offset of
the variable in the segment of its own binary.  The word it stores is to be the
distance of the variable from the thread pointer.  The second way gets the sign of
this distance wrong; the third is not known to `Relocate`, which looks for a
symbol with the name of symbol zero. -/

variable {host : Host} {memory : Memory} {binaries before : List ELFBinary} {loader next : DynLoader}
  {bin b : ELFBinary} {r : Elf64Rela} {s : Elf64Sym} {name : CString} {index entry : Nat} {offset : Elf64Addr}
  {address : Address}

theorem exists_tlsSymbol (found : firstNamed memory name Elf64Sym.isTls (symbolTable binaries) ≠ none) :
    ∃ before b s, TlsSymbol memory binaries name before b s := by
  induction binaries with
  | nil => exact absurd rfl found
  | cons head rest ih =>
      cases here : head.symtabs.find? fun symbol => head.nameIs memory name symbol && symbol.isTls with
      | some symbol => exact ⟨[], head, symbol, ⟨rest, rfl⟩, rfl, here⟩
      | none =>
          have skipped : firstNamed memory name Elf64Sym.isTls (head.symtabs.map (head, ·)) = none := by
            rw [firstNamed, List.find?_map, Option.map_eq_none_iff]
            exact here
          rw [symbolTable_cons, firstNamed, List.find?_append, ← firstNamed, skipped, Option.none_or] at found
          obtain ⟨before, b, symbol, ⟨after, split⟩, unmatched, matched⟩ := ih found
          refine ⟨head :: before, b, symbol, ⟨after, by rw [split]; rfl⟩, ?_, matched⟩
          rw [symbolTable_cons, firstNamed, List.find?_append, ← firstNamed, skipped, Option.none_or]
          exact unmatched

theorem TlsSymbol.tlsSymOffset (found : TlsSymbol memory binaries name before b s) :
    tlsSymOffset host memory binaries name = .ok (0 - tlsBlockSize before - b.fileTls.pMemsz + s.stValue) := by
  obtain ⟨after, rfl⟩ := found.split
  have named := List.find?_some found.matched
  have terminated : memory.Terminated := terminated_of_nameIs (Bool.and_eq_true_iff.mp named).1
  exact tlsSymOffset_eq terminated host found.unmatched found.matched

theorem tlsSymOffset_libc (terminated : memory.Terminated)
    (unmatched : firstNamed memory name Elf64Sym.isTls (symbolTable binaries) = none) :
    tlsSymOffset host memory binaries name =
      match host.libcTlsVariables name with
      | some address => .ok (host.tlsBlock + 4096 - address)
      | none => .error .abort := by
  have searched := @tlsSymOffsetFrom_append memory binaries [] name terminated 0 unmatched
  rw [List.append_nil, tlsSymOffsetFrom] at searched
  rw [tlsSymOffset, searched]
  rfl

/-- The entry is processed, and the word it stores leads from the thread pointer
to this address. -/
def LeadsTo (host : Host) (loader : DynLoader) (index : Nat) (bin : ELFBinary) (r : Elf64Rela) (entry : Nat)
    (address : Address) : Prop :=
  ∃ next, loader.relocateEntry host index bin (r, entry) = .ok next ∧
    host.tlsBlock + 4096 + next.memory.bytes.load64 (bin.target r) = address

theorem leadsTo_iff (type : r.rType = .tpoff64) :
    LeadsTo host loader index bin r entry address ↔
      ∃ name offset, bin.Refers loader.memory r name ∧
        tlsSymOffset host loader.memory loader.binaries name = .ok offset ∧ host.tlsBlock + 4096 + offset = address := by
  constructor
  · intro leads
    obtain ⟨next, ran, place⟩ := leads
    obtain ⟨name, effect, _, refers, effected, written, _⟩ := relocateEntry_cases ran
    simp only [resolve, type, bind_eq_ok, pure_eq_ok] at effected
    obtain ⟨offset, stored, rfl⟩ := effected
    rw [written, Write.apply, Memory.store64, Bytes.load64_store64] at place
    exact ⟨name, offset, refers, stored, place⟩
  · intro stores
    obtain ⟨name, offset, refers, stored, place⟩ := stores
    have effected : resolve host loader.memory loader.binaries bin r name = .ok (.word (bin.target r) offset) := by
      simp only [resolve, type, stored, bind, Except.bind]
      rfl
    obtain ⟨next, ran, written⟩ := @relocateEntry_of_resolve host bin r name _ loader index entry refers effected
    refine ⟨next, ran, ?_⟩
    rw [written, Write.apply, Memory.store64, Bytes.load64_store64]
    exact place

theorem leadsTo_of_refers (type : r.rType = .tpoff64) (refers : bin.Refers loader.memory r name)
    (stored : tlsSymOffset host loader.memory loader.binaries name = .ok offset) :
    LeadsTo host loader index bin r entry address ↔ host.tlsBlock + 4096 + offset = address := by
  rw [leadsTo_iff type]
  constructor
  · intro stores
    obtain ⟨text, other, alsoRefers, alsoStored, place⟩ := stores
    cases refers.unique alsoRefers
    cases stored.symm.trans alsoStored
    exact place
  · intro place
    exact ⟨name, offset, refers, stored, place⟩

theorem blockBelow_start (host : Host) (before : List ELFBinary) (b : ELFBinary) (offset : Elf64Addr) :
    host.tlsBlock + 4096 + (0 - tlsBlockSize before - b.fileTls.pMemsz + offset) =
      (blockBelow host before b).start + offset := by
  simp only [TlsBlock.start, blockBelow]
  ring

/-- The distance from the thread pointer is its own negative. -/
theorem mirrored_iff (tp address : Address) :
    tp + (tp - address) = address ↔ address = tp ∨ address = tp + 0x8000000000000000 := by
  constructor
  · intro same
    bv_omega
  · intro either
    bv_omega

/-- What a search for the name of symbol zero leads to: a variable that a loaded
binary defines, or the mirror image of one of libc's. -/
def SearchLeadsTo (host : Host) (loader : DynLoader) (name : CString) (address : Address) : Prop :=
  (∃ before b s, TlsSymbol loader.memory loader.binaries name before b s ∧
    (blockBelow host before b).start + s.stValue = address) ∨
  (firstNamed loader.memory name Elf64Sym.isTls (symbolTable loader.binaries) = none ∧
    ∃ listed, host.libcTlsVariables name = some listed ∧
      host.tlsBlock + 4096 + (host.tlsBlock + 4096 - listed) = address)

theorem searchLeadsTo_iff (terminated : loader.memory.Terminated) :
    SearchLeadsTo host loader name address ↔
      ∃ offset, tlsSymOffset host loader.memory loader.binaries name = .ok offset ∧
        host.tlsBlock + 4096 + offset = address := by
  constructor
  · intro leads
    cases leads with
    | inl defined =>
        obtain ⟨before, b, s, found, place⟩ := defined
        exact ⟨_, found.tlsSymOffset, (blockBelow_start host before b s.stValue).trans place⟩
    | inr ofLibc =>
        obtain ⟨unmatched, variableAt, listed, place⟩ := ofLibc
        refine ⟨_, ?_, place⟩
        rw [tlsSymOffset_libc terminated unmatched, listed]
  · intro stores
    obtain ⟨offset, stored, place⟩ := stores
    by_cases unmatched : firstNamed loader.memory name Elf64Sym.isTls (symbolTable loader.binaries) = none
    · rw [tlsSymOffset_libc terminated unmatched] at stored
      cases listed : host.libcTlsVariables name with
      | none =>
          rw [listed] at stored
          cases stored
      | some variableAt =>
          simp only [listed, Except.ok.injEq] at stored
          subst stored
          exact .inr ⟨unmatched, variableAt, listed, place⟩
    · obtain ⟨before, b, s, found⟩ := exists_tlsSymbol unmatched
      cases found.tlsSymOffset.symm.trans stored
      exact .inl ⟨before, b, s, found, (blockBelow_start host before b s.stValue).symm.trans place⟩

/-- A variable that a loaded binary defines is always reached.  One of libc's is
reached only where it is its own mirror image at the thread pointer, and one of the
entry's own binary only if a search for the name of symbol zero leads to it. -/
theorem tpoff64_leadsTo (type : r.rType = .tpoff64) :
    (∀ name before b s, r.rSym ≠ 0 → bin.Refers loader.memory r name →
      TlsSymbol loader.memory loader.binaries name before b s →
      LeadsTo host loader index bin r entry ((blockBelow host before b).start + s.stValue)) ∧
    (∀ name address, r.rSym ≠ 0 → bin.Refers loader.memory r name →
      firstNamed loader.memory name Elf64Sym.isTls (symbolTable loader.binaries) = none →
      host.libcTlsVariables name = some address →
      (LeadsTo host loader index bin r entry address ↔
        address = host.tlsBlock + 4096 ∨ address = host.tlsBlock + 4096 + 0x8000000000000000)) ∧
    (∀ earlier later, r.rSym = 0 → loader.binaries = earlier ++ bin :: later →
      (LeadsTo host loader earlier.length bin r entry ((blockBelow host earlier bin).start + r.rAddend) ↔
        ∃ name, bin.Refers loader.memory r name ∧
          SearchLeadsTo host loader name ((blockBelow host earlier bin).start + r.rAddend))) := by
  refine ⟨?_, ?_, ?_⟩
  · intro name before b s _ refers found
    exact (leadsTo_of_refers type refers found.tlsSymOffset).mpr (blockBelow_start host before b s.stValue)
  · intro name address _ refers unmatched listed
    have stored : tlsSymOffset host loader.memory loader.binaries name = .ok (host.tlsBlock + 4096 - address) := by
      rw [tlsSymOffset_libc refers.terminated unmatched, listed]
    rw [leadsTo_of_refers type refers stored, mirrored_iff]
  · intro earlier later _ _
    rw [leadsTo_iff type]
    constructor
    · intro stores
      obtain ⟨name, offset, refers, stored⟩ := stores
      exact ⟨name, refers, (searchLeadsTo_iff refers.terminated).mpr ⟨offset, stored⟩⟩
    · intro found
      obtain ⟨name, refers, leads⟩ := found
      obtain ⟨offset, stored⟩ := (searchLeadsTo_iff refers.terminated).mp leads
      exact ⟨name, offset, refers, stored⟩

namespace Sample

/-- An executable with a thread-local word `x` and three `TPOFF64` entries: for
`errno`, for `x`, and for the start of its segment. -/
def errnoHost : Host :=
  -- the strings are "errno" and "x", at 1 and 8
  let executable : Object :=
    { header := [7, 232, 232, 0, 8, 8, 8], data := [0x1111111111111111, 0, 0, 0], strings := [0x6f6e72726500, 0x78]
      symbols := [0, 0, 0, 0x1600000001, 0, 0, 0x1001600000008, 0, 8]
      relas := [240, 0x100000012, 0, 248, 0x200000012, 0, 256, 0x12, 0] }
  { Sample.host [(ascii "m", executable.file)] (fun _ => none) with
    libcTlsVariables := fun name => if name = ascii "errno" then some 0x7f0000000800 else none }

@[irreducible] def errnoLoader : DynLoader :=
  started errnoHost (ascii "/bin/m")

theorem errnoLoader_facts :
    errnoLoader.binaries.length = 1 ∧ ∀ bin ∈ errnoLoader.binaries,
      bin.entries = [⟨240, 0x100000012, 0⟩, ⟨248, 0x200000012, 0⟩, ⟨256, 0x12, 0⟩] ∧
      bin.symtabs = [⟨0, 0, 0, 0, 0⟩, ⟨1, 0x16, 0, 0, 0⟩, ⟨8, 0x16, 1, 0, 8⟩] ∧ bin.hasTls = true ∧
      (bin.symtabs.map fun symbol => (bin.symbolName errnoLoader.memory symbol).toOption) =
        [some [], some (ascii "errno"), some (ascii "x")] ∧
      (firstNamed errnoLoader.memory [] Elf64Sym.isTls (symbolTable errnoLoader.binaries)).isNone = true ∧
      (firstNamed errnoLoader.memory (ascii "errno") Elf64Sym.isTls (symbolTable errnoLoader.binaries)).isNone = true ∧
      (bin.symtabs.find? fun s => bin.nameIs errnoLoader.memory (ascii "x") s && s.isTls) =
        some ⟨8, 0x16, 1, 0, 8⟩ := by
  decide +kernel

theorem errnoLoader_entries :
    ∃ bin, errnoLoader.binaries = [] ++ bin :: [] ∧ bin.hasTls = true ∧
      bin.entries = [⟨240, 0x100000012, 0⟩, ⟨248, 0x200000012, 0⟩, ⟨256, 0x12, 0⟩] ∧
      bin.Refers errnoLoader.memory ⟨240, 0x100000012, 0⟩ (ascii "errno") ∧
      bin.Refers errnoLoader.memory ⟨248, 0x200000012, 0⟩ (ascii "x") ∧
      bin.Refers errnoLoader.memory ⟨256, 0x12, 0⟩ [] ∧
      firstNamed errnoLoader.memory [] Elf64Sym.isTls (symbolTable errnoLoader.binaries) = none ∧
      firstNamed errnoLoader.memory (ascii "errno") Elf64Sym.isTls (symbolTable errnoLoader.binaries) = none ∧
      TlsSymbol errnoLoader.memory errnoLoader.binaries (ascii "x") [] bin ⟨8, 0x16, 1, 0, 8⟩ := by
  obtain ⟨one, facts⟩ := errnoLoader_facts
  obtain ⟨bin, binaries⟩ := List.length_eq_one_iff.mp one
  obtain ⟨entries, symbols, hasTls, names, nameless, errno, x⟩ := facts bin (by rw [binaries]; exact List.mem_singleton.mpr rfl)
  rw [symbols] at names
  simp only [List.map_cons, List.map_nil, List.cons.injEq, and_true] at names
  obtain ⟨zero, first, second⟩ := names
  refine ⟨bin, binaries, hasTls, entries, ⟨_, ?_, eq_ok_of_toOption first⟩, ⟨_, ?_, eq_ok_of_toOption second⟩,
    ⟨_, ?_, eq_ok_of_toOption zero⟩, Option.isNone_iff_eq_none.mp nameless, Option.isNone_iff_eq_none.mp errno,
    ⟨⟨[], binaries⟩, rfl, x⟩⟩
  · rw [symbols]
    rfl
  · rw [symbols]
    rfl
  · rw [symbols]
    rfl

theorem tpoff64_leadsTo_x :
    ∃ bin r s, errnoLoader.binaries = [bin] ∧ r ∈ bin.entries ∧ r.rType = .tpoff64 ∧
      bin.Refers errnoLoader.memory r (ascii "x") ∧
      TlsSymbol errnoLoader.memory errnoLoader.binaries (ascii "x") [] bin s ∧
      LeadsTo errnoHost errnoLoader 0 bin r 1 ((blockBelow errnoHost [] bin).start + s.stValue) := by
  obtain ⟨bin, binaries, _, entries, _, refers, _, _, _, found⟩ := errnoLoader_entries
  refine ⟨bin, ⟨248, 0x200000012, 0⟩, _, binaries, by simp [entries], by decide, refers, found, ?_⟩
  exact (tpoff64_leadsTo (by decide)).1 (ascii "x") [] bin _ (by decide) refers found

/-- The word for `errno` leads away from it, and the entry for the executable's
own segment stops the loader. -/
theorem tpoff64_misses :
    ∃ bin libc own, errnoLoader.binaries = [] ++ bin :: [] ∧ libc ∈ bin.entries ∧ own ∈ bin.entries ∧
      libc.rType = .tpoff64 ∧ libc.rSym ≠ 0 ∧ bin.Refers errnoLoader.memory libc (ascii "errno") ∧
      firstNamed errnoLoader.memory (ascii "errno") Elf64Sym.isTls (symbolTable errnoLoader.binaries) = none ∧
      errnoHost.libcTlsVariables (ascii "errno") = some 0x7f0000000800 ∧
      ¬ LeadsTo errnoHost errnoLoader 0 bin libc 0 0x7f0000000800 ∧
      own.rType = .tpoff64 ∧ own.rSym = 0 ∧ bin.hasTls = true ∧
      ¬ LeadsTo errnoHost errnoLoader 0 bin own 2 ((blockBelow errnoHost [] bin).start + own.rAddend) := by
  obtain ⟨bin, binaries, hasTls, entries, refers, _, zero, nameless, errno, _⟩ := errnoLoader_entries
  have listed : errnoHost.libcTlsVariables (ascii "errno") = some 0x7f0000000800 := by decide
  refine ⟨bin, ⟨240, 0x100000012, 0⟩, ⟨256, 0x12, 0⟩, binaries, by simp [entries], by simp [entries], by decide,
    by decide, refers, errno, listed, ?_, by decide, by decide, hasTls, ?_⟩
  · intro leads
    have stored := @tlsSymOffset_libc errnoHost errnoLoader.memory errnoLoader.binaries (ascii "errno")
      refers.terminated errno
    rw [listed] at stored
    have place := (leadsTo_of_refers (by decide) refers stored).mp leads
    exact absurd place (by decide)
  · intro leads
    obtain ⟨name, offset, alsoRefers, stored, _⟩ := (leadsTo_iff (by decide)).mp leads
    cases zero.unique alsoRefers
    have absent : errnoHost.libcTlsVariables [] = none := by decide
    rw [tlsSymOffset_libc zero.terminated nameless, absent] at stored
    cases stored

end Sample

end Sloader
