import Sloader.Relocate.Words
import Sloader.Sample

namespace Sloader

open Data

/-! `COPY` entries.  The bytes are copied when the entry is reached, which for an
entry of the executable is before any library has been relocated. -/

variable {host : Host} {memory middle final : Memory} {binaries : List ELFBinary} {item other : Item} {name : CString}
  {library : ELFBinary} {symbol : Elf64Sym} {before later : List Item} {records : List Processed}
  {loader after : DynLoader}

theorem resolve_copy {bin : ELFBinary} {r : Elf64Rela} {effect : Write} (copy : r.rType = .copy)
    (terminated : memory.Terminated) (unmapped : host.libcMap name = none)
    (found : definition memory name (symbolTable (binaries.drop 1)) = some (library, symbol))
    (resolved : resolve host memory binaries bin r name = .ok effect) :
    effect = .copy (bin.target r) (library.baseAddr + symbol.stValue) symbol.stSize := by
  obtain ⟨hit, searched, place⟩ := @searchSym_spec memory binaries terminated name true
  simp only [if_true, found, Option.map_some, Option.map_eq_some_iff] at place
  obtain ⟨index, rfl, entryAt⟩ := place
  simp only [resolve, copy, searched, bind, Except.bind, unmapped, entryAt, pure_eq_ok] at resolved
  exact resolved.symm

theorem Item.write_copy (copy : item.rela.rType = .copy) (named : item.name memory = some name)
    (unmapped : host.libcMap name = none)
    (defined : firstNamed memory name Elf64Sym.isDefined (symbolTable (binaries.drop 1)) = some (library, symbol))
    {text : CString} {effect : Write}
    (resolved : resolveEntry host memory binaries item.bin item.rela = .ok (text, effect)) :
    effect = .copy item.target (library.baseAddr + symbol.stValue) symbol.stSize := by
  have same : text = name := Option.some.inj ((Item.name_eq resolved).symm.trans named)
  subst same
  obtain ⟨own, _, read, resolved⟩ := resolveEntry_ok resolved
  have hit : definition memory text (symbolTable (binaries.drop 1)) = some (library, symbol) := by
    rw [definition, defined]
    rfl
  exact resolve_copy copy (terminated_of_string read) unmapped hit resolved

def Copied (memory : Memory) (destination source : Address) (size : Nat) : Prop :=
  ∀ offset < size,
    memory.bytes (destination + BitVec.ofNat 64 offset) = memory.bytes (source + BitVec.ofNat 64 offset)

def WritesApart (host : Host) (memory : Memory) (binaries : List ELFBinary) (items : List Item) : Prop :=
  items.Pairwise fun left right =>
    Apart (left.write host memory binaries).start (left.write host memory binaries).count
      (right.write host memory binaries).start (right.write host memory binaries).count

section Pass

variable {source : Address} {size : Elf64Xword}
  (spares : SparesStrings host memory binaries (before ++ item :: later))
  (copies : item.write host memory binaries = .copy item.target source size)
  (passed : pass host binaries memory (before ++ item :: later) = .ok (final, records))

include spares copies passed

theorem copied_destination {offset : Nat} (within : offset < size.toNat)
    (uncovered : ∀ other ∈ later,
      ¬ (other.write host memory binaries).Covers (item.target + BitVec.ofNat 64 offset)) :
    ∃ middle records, pass host binaries memory before = .ok (middle, records) ∧
      final.bytes (item.target + BitVec.ofNat 64 offset) = middle.bytes (source + BitVec.ofNat 64 offset) := by
  have bound : offset < 2 ^ 64 := within.trans size.isLt
  have covers : (item.write host memory binaries).Covers (item.target + BitVec.ofNat 64 offset) := by
    rw [copies]
    exact Inside.offset within bound
  obtain ⟨middle, records, passedBefore, same⟩ := spares.inside (.refl memory binaries) passed covers uncovered
  refine ⟨middle, records, passedBefore, ?_⟩
  rw [same, copies, Write.byteAt]
  congr 2
  rw [BitVec.add_comm item.target, BitVec.add_sub_cancel]

theorem copied_source {address : Address} (apart : ¬ Inside item.target size.toNat address)
    (uncovered : ∀ other ∈ later, ¬ (other.write host memory binaries).Covers address)
    (passedBefore : ∃ records, pass host binaries memory before = .ok (middle, records)) :
    final.bytes address = middle.bytes address := by
  obtain ⟨recordsBefore, passedBefore⟩ := passedBefore
  obtain ⟨other, first, rest, passedFirst, passedRest, _⟩ := pass_append_ok.mp passed
  have same : other = middle := by
    have both := passedFirst.symm.trans passedBefore
    simp only [Except.ok.injEq, Prod.mk.injEq] at both
    exact both.1
  subst same
  have kept := (spares.sublist fun _ => List.mem_append_left _).keeps (.refl memory binaries) passedBefore
  apply (spares.sublist fun _ => List.mem_append_right before).outside kept passedRest
  intro other member
  rcases List.mem_cons.mp member with rfl | inLater
  · rw [copies]
    exact apart
  · exact uncovered other inLater

theorem copied_of_uncovered (distinct : Apart item.target size.toNat source size.toNat)
    (uncovered : ∀ other ∈ later, ∀ address,
      Inside item.target size.toNat address ∨ Inside source size.toNat address →
      ¬ (other.write host memory binaries).Covers address) : Copied final item.target source size.toNat := by
  intro offset within
  have bound : offset < 2 ^ 64 := within.trans size.isLt
  have inTarget : Inside item.target size.toNat (item.target + BitVec.ofNat 64 offset) := .offset within bound
  have inSource : Inside source size.toNat (source + BitVec.ofNat 64 offset) := .offset within bound
  obtain ⟨middle, recordsBefore, passedBefore, same⟩ := copied_destination spares copies passed within
    fun other member => uncovered other member _ (.inl inTarget)
  rw [same]
  exact (copied_source spares copies passed (fun inside => distinct _ inside inSource)
    (fun other member => uncovered other member _ (.inr inSource)) ⟨recordsBefore, passedBefore⟩).symm

theorem copied_bytes (apart : WritesApart host memory binaries (before ++ item :: later)) {offset : Nat}
    (within : offset < size.toNat) :
    ∃ middle records, pass host binaries memory before = .ok (middle, records) ∧
      final.bytes (item.target + BitVec.ofNat 64 offset) = middle.bytes (source + BitVec.ofNat 64 offset) := by
  apply copied_destination spares copies passed within
  intro other member covers
  obtain ⟨_, rest, _⟩ := List.pairwise_append.mp apart
  apply (List.pairwise_cons.mp rest).1 other member _ _ covers
  rw [copies]
  exact Inside.offset within (within.trans size.isLt)

omit copies in
theorem copied_stale {recordsBefore : List Processed} (apart : WritesApart host memory binaries (before ++ item :: later)) {address : Address}
    (member : other ∈ later) (covers : (other.write host memory binaries).Covers address)
    (plain : other.rela.rType ≠ .copy)
    (passedBefore : pass host binaries memory before = .ok (middle, recordsBefore)) :
    middle.bytes address = memory.bytes address ∧
      final.bytes address = (other.write host memory binaries).byteAt memory address := by
  obtain ⟨_, restApart, cross⟩ := List.pairwise_append.mp apart
  obtain ⟨first, rest, rfl⟩ := List.append_of_mem member
  constructor
  · apply (spares.sublist fun _ => List.mem_append_left _).outside (.refl memory binaries) passedBefore
    intro earlier isEarlier covered
    exact cross earlier isEarlier other (List.mem_cons_of_mem item member) address covered covers
  · have regroup : before ++ item :: (first ++ other :: rest) = (before ++ item :: first) ++ other :: rest := by simp
    rw [regroup] at spares passed apart
    obtain ⟨_, otherApart, _⟩ := List.pairwise_append.mp apart
    obtain ⟨reached, _, _, same⟩ := spares.inside (.refl memory binaries) passed covers (by
      intro last isLast covered
      exact (List.pairwise_cons.mp otherApart).1 last isLast address covers covered)
    obtain ⟨_, resolved⟩ := spares.resolves (.refl memory binaries) passed other (by simp)
    obtain ⟨_, _, _, resolved⟩ := resolveEntry_ok resolved
    rw [same]
    rcases resolve_word resolved plain with stored | ⟨value, stored⟩
    · rw [stored]
      rfl
    · rw [stored]
      rfl

theorem copied_iff (apart : WritesApart host memory binaries (before ++ item :: later))
    (distinct : Apart item.target size.toNat source size.toNat)
    (words : ∀ other ∈ later, other.rela.rType = .copy → ∀ address, Inside source size.toNat address →
      ¬ (other.write host memory binaries).Covers address) :
    Copied final item.target source size.toNat ↔
      ∀ other ∈ later, ∀ address, Inside source size.toNat address →
        (other.write host memory binaries).Covers address →
        (other.write host memory binaries).byteAt memory address = memory.bytes address := by
  constructor
  · intro copied other member address inside covers
    have plain : other.rela.rType ≠ .copy := fun copy => words other member copy address inside covers
    obtain ⟨offset, within, _, rfl⟩ := inside.exists_offset
    obtain ⟨middle, recordsBefore, passedBefore, same⟩ := copied_bytes spares copies passed apart within
    obtain ⟨stale, stored⟩ := copied_stale spares passed apart member covers plain passedBefore
    rw [← stored, ← copied offset within, same, stale]
  · intro unchanged offset within
    have inSource : Inside source size.toNat (source + BitVec.ofNat 64 offset) :=
      .offset within (within.trans size.isLt)
    obtain ⟨middle, recordsBefore, passedBefore, same⟩ := copied_bytes spares copies passed apart within
    rw [same]
    by_cases covered : ∃ other ∈ later,
        (other.write host memory binaries).Covers (source + BitVec.ofNat 64 offset)
    · obtain ⟨other, member, covers⟩ := covered
      have plain : other.rela.rType ≠ .copy := fun copy => words other member copy _ inSource covers
      obtain ⟨stale, stored⟩ := copied_stale spares passed apart member covers plain passedBefore
      rw [stale, stored]
      exact (unchanged other member _ inSource covers).symm
    · exact (copied_source spares copies passed (fun inside => distinct _ inside inSource)
        (fun other member covers => covered ⟨other, member, covers⟩) ⟨recordsBefore, passedBefore⟩).symm

end Pass

/-- What the `COPY` entry has copied is what its source holds in the end if no
later entry writes to either; and where all writes lie apart, exactly if every
byte that a later entry stores in the source was there from the start. -/
theorem relocate_copied_iff (ran : loader.relocate host = .ok after)
    (split : loader.work = before ++ item :: later) (copy : item.rela.rType = .copy)
    (named : item.name loader.memory = some name) (unmapped : host.libcMap name = none)
    (defined : firstNamed loader.memory name Elf64Sym.isDefined (symbolTable (loader.binaries.drop 1)) =
      some (library, symbol))
    (spares : SparesStrings host loader.memory loader.binaries loader.work)
    (distinct : Apart item.target symbol.stSize.toNat (library.baseAddr + symbol.stValue) symbol.stSize.toNat) :
    ((∀ other ∈ later, ∀ address,
        Inside item.target symbol.stSize.toNat address ∨
          Inside (library.baseAddr + symbol.stValue) symbol.stSize.toNat address →
        ¬ (other.write host loader.memory loader.binaries).Covers address) →
      Copied after.memory item.target (library.baseAddr + symbol.stValue) symbol.stSize.toNat) ∧
    (WritesApart host loader.memory loader.binaries loader.work →
      (∀ other ∈ later, other.rela.rType = .copy → ∀ address,
        Inside (library.baseAddr + symbol.stValue) symbol.stSize.toNat address →
        ¬ (other.write host loader.memory loader.binaries).Covers address) →
      (Copied after.memory item.target (library.baseAddr + symbol.stValue) symbol.stSize.toNat ↔
        ∀ other ∈ later, ∀ address, Inside (library.baseAddr + symbol.stValue) symbol.stSize.toNat address →
          (other.write host loader.memory loader.binaries).Covers address →
          (other.write host loader.memory loader.binaries).byteAt loader.memory address =
            loader.memory.bytes address)) := by
  obtain ⟨records, passed, _⟩ := DynLoader.relocate_pass ran
  rw [split] at passed spares
  obtain ⟨text, resolved⟩ := spares.resolves (.refl loader.memory loader.binaries) passed item (by simp)
  have copies := Item.write_copy copy named unmapped defined resolved
  rw [split]
  exact ⟨copied_of_uncovered spares copies passed distinct,
    fun apart words => copied_iff spares copies passed apart distinct words⟩

/-- A library whose variable `x` is a pointer that a `RELATIVE` entry sets, and an
executable that copies it. -/
def copyHost : Host :=
  -- the strings are "a" and "x", at 2 and 4
  let strings : List (BitVec 64) := [0x7800610000]
  let executable : Sample.Object :=
    { data := [0], strings, needed := [2], symbols := [0, 0, 0, 0x1001100000004, 232, 8]
      relas := [232, 0x100000005, 0] }
  let library : Sample.Object :=
    { data := [0, 7], strings, symbols := [0, 0, 0, 0x1001100000004, 232, 8], relas := [232, 8, 240] }
  Sample.host [(ascii "m", executable.file), (ascii "a", library.file)] fun _ => none

@[irreducible] def copyLoader : DynLoader :=
  Sample.started copyHost (ascii "/bin/m")

theorem copyLoader_facts :
    (copyLoader.work.map fun item => (item.binIndex, item.rela.rType, item.target, item.name copyLoader.memory)) =
      [(0, .copy, 0x14000e8, some (ascii "x")), (1, .relative, 0x18000e8, some [])] ∧
    ((firstNamed copyLoader.memory (ascii "x") Elf64Sym.isDefined
        (symbolTable (copyLoader.binaries.drop 1))).map fun entry => (entry.1.baseAddr, entry.2)) =
      some (0x1800000, ⟨4, 0x11, 1, 232, 8⟩) ∧
    (∀ item ∈ copyLoader.work,
      ∀ offset < (item.write copyHost copyLoader.memory copyLoader.binaries).count,
      ∀ binary ∈ copyLoader.binaries, ∀ symbol ∈ binary.symtabs, ∃ length < 2,
        length < ((item.write copyHost copyLoader.memory copyLoader.binaries).start +
          BitVec.ofNat 64 offset - (symbol.stName.setWidth 64 + binary.strtab)).toNat ∧
        copyLoader.memory.bytes (symbol.stName.setWidth 64 + binary.strtab + BitVec.ofNat 64 length) = 0) ∧
    (copyLoader.work.Pairwise fun left right =>
      (left.write copyHost copyLoader.memory copyLoader.binaries).count ≤
          ((right.write copyHost copyLoader.memory copyLoader.binaries).start -
            (left.write copyHost copyLoader.memory copyLoader.binaries).start).toNat ∧
        (right.write copyHost copyLoader.memory copyLoader.binaries).count ≤
          ((left.write copyHost copyLoader.memory copyLoader.binaries).start -
            (right.write copyHost copyLoader.memory copyLoader.binaries).start).toNat) ∧
    (copyLoader.relocate copyHost).toOption.map (fun after =>
        (after.memory.bytes 0x14000e8, after.memory.bytes 0x18000e8)) = some (0, 0xf0) := by
  decide +kernel

theorem copyLoader_entry :
    ∃ item later library symbol after, copyLoader.work = [] ++ item :: later ∧ item.binIndex = 0 ∧
      item.rela.rType = .copy ∧ item.target = 0x14000e8 ∧ item.name copyLoader.memory = some (ascii "x") ∧
      firstNamed copyLoader.memory (ascii "x") Elf64Sym.isDefined (symbolTable (copyLoader.binaries.drop 1)) =
        some (library, symbol) ∧
      library.baseAddr + symbol.stValue = 0x18000e8 ∧ symbol.stSize = 8 ∧
      (∀ other ∈ later, other.rela.rType = .relative) ∧ copyLoader.relocate copyHost = .ok after ∧
      after.memory.bytes 0x14000e8 = 0 ∧ after.memory.bytes 0x18000e8 = 0xf0 := by
  obtain ⟨items, definition, _, _, run⟩ := copyLoader_facts
  obtain ⟨⟨library, symbol⟩, defined, place⟩ := Option.map_eq_some_iff.mp definition
  obtain ⟨after, ran, bytes⟩ := Option.map_eq_some_iff.mp run
  simp only [Prod.mk.injEq] at place bytes
  generalize work : copyLoader.work = list at items
  cases list with
  | nil => simp at items
  | cons item later =>
      simp only [List.map_cons, List.cons.injEq, Prod.mk.injEq] at items
      obtain ⟨⟨index, type, target, named⟩, rest⟩ := items
      have relative : ∀ other ∈ later, other.rela.rType = .relative := by
        intro other member
        have mapped := List.mem_map_of_mem member
          (f := fun item => (item.binIndex, item.rela.rType, item.target, item.name copyLoader.memory))
        rw [rest, List.mem_singleton, Prod.mk.injEq, Prod.mk.injEq] at mapped
        exact mapped.2.1
      refine ⟨item, later, library, symbol, after, rfl, index, type, target, named, defined, ?_, ?_, relative,
        eq_ok_of_toOption ran, bytes.1, bytes.2⟩
      · rw [place.1, place.2]
        decide
      · rw [place.2]

theorem relocate_copied_iff_copyLoader :
    ∃ item later after, copyLoader.work = [] ++ item :: later ∧ copyLoader.relocate copyHost = .ok after ∧
      (Copied after.memory item.target 0x18000e8 8 ↔
        ∀ other ∈ later, ∀ address, Inside 0x18000e8 8 address →
          (other.write copyHost copyLoader.memory copyLoader.binaries).Covers address →
          (other.write copyHost copyLoader.memory copyLoader.binaries).byteAt copyLoader.memory address =
            copyLoader.memory.bytes address) := by
  obtain ⟨_, _, ends, starts, _⟩ := copyLoader_facts
  obtain ⟨item, later, library, symbol, after, split, _, copy, target, named, defined, source, size, relative, ran,
    _⟩ := copyLoader_entry
  have distinct : Apart item.target symbol.stSize.toNat (library.baseAddr + symbol.stValue) symbol.stSize.toNat := by
    rw [target, source, size]
    exact apart_of_starts (by decide) (by decide)
  obtain ⟨_, exact⟩ := relocate_copied_iff ran split copy named rfl defined
    (DynLoader.sparesStrings 2 ends) distinct
  refine ⟨item, later, after, split, ran, ?_⟩
  have result := exact (starts.imp fun outside => apart_of_starts outside.1 outside.2) (by
    intro other member isCopy
    rw [relative other member] at isCopy
    contradiction)
  rw [source, size] at result
  exact result

/-- The executable's copy is what the library's variable was before its entry was processed. -/
theorem relocate_copies_early :
    ∃ item later library symbol after, copyLoader.work = item :: later ∧ item.binIndex = 0 ∧
      item.rela.rType = .copy ∧ item.name copyLoader.memory = some (ascii "x") ∧
      copyHost.libcMap (ascii "x") = none ∧
      firstNamed copyLoader.memory (ascii "x") Elf64Sym.isDefined (symbolTable (copyLoader.binaries.drop 1)) =
        some (library, symbol) ∧
      copyLoader.relocate copyHost = .ok after ∧
      ¬ Copied after.memory item.target (library.baseAddr + symbol.stValue) symbol.stSize.toNat := by
  obtain ⟨item, later, library, symbol, after, split, index, copy, target, named, defined, source, size, _, ran,
    destinationByte, sourceByte⟩ := copyLoader_entry
  refine ⟨item, later, library, symbol, after, split, index, copy, named, rfl, defined, ran, ?_⟩
  intro copied
  rw [target, source, size] at copied
  have same : after.memory.bytes 0x14000e8 = after.memory.bytes 0x18000e8 := copied 0 (by decide)
  rw [destinationByte, sourceByte] at same
  exact absurd same (by decide)

end Sloader
