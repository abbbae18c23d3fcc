import Sloader.Relocate.Pass

namespace Sloader

open Data

/-! The memory that a pass leaves.  As long as no entry writes into a name, every
entry does what it would do in the memory that the pass starts from. -/

namespace Write

def start : Write → Address
  | .none => 0
  | .word address _ => address
  | .copy destination _ _ => destination

def count : Write → Nat
  | .none => 0
  | .word _ _ => 8
  | .copy _ _ size => size.toNat

def Covers (write : Write) (address : Address) : Prop :=
  Inside write.start write.count address

/-- What the write puts at an address it covers. -/
def byteAt (memory : Memory) (write : Write) (address : Address) : UInt8 :=
  match write with
  | .none => 0
  | .word start value => Bytes.wordByte value.toNat (address - start).toNat
  | .copy destination source _ => memory.bytes (source + (address - destination))

instance (write : Write) (address : Address) : Decidable (write.Covers address) :=
  inferInstanceAs (Decidable (Inside _ _ _))

variable {memory : Memory} {write : Write} {address : Address}

theorem apply_outside (outside : ¬ write.Covers address) :
    (write.apply memory).bytes address = memory.bytes address := by
  cases write with
  | none => rfl
  | word start value => exact Bytes.patch_outside outside
  | copy destination source size =>
      simp only [apply, Memory.memcpy]
      exact Bytes.patch_outside outside

theorem apply_inside (inside : write.Covers address) :
    (write.apply memory).bytes address = write.byteAt memory address := by
  cases write with
  | none => exact absurd inside (Nat.not_lt_zero _)
  | word start value => exact Bytes.patch_inside inside
  | copy destination source size =>
      simp only [apply, Memory.memcpy]
      refine (Bytes.patch_inside inside).trans ?_
      simp only [start, byteAt, BitVec.ofNat_toNat, BitVec.setWidth_eq]

theorem apply_ranges (write : Write) (memory : Memory) : (write.apply memory).ranges = memory.ranges := by
  cases write <;> rfl

end Write

variable {host : Host} {memory initial : Memory} {binaries : List ELFBinary} {bin : ELFBinary} {r : Elf64Rela}
  {text : CString} {effect : Write}

theorem resolve_word (resolved : resolve host memory binaries bin r text = .ok effect) (plain : r.rType ≠ .copy) :
    effect = .none ∨ ∃ value, effect = .word (bin.target r) value := by
  unfold resolve at resolved
  cases type : r.rType <;> simp only [type, bind_eq_ok, pure_eq_ok] at resolved plain
  case globDat | jumpSlot | abs64 =>
    obtain ⟨symAddr, _, stored⟩ := resolved
    cases symAddr with
    | none => exact .inl (pure_eq_ok.mp stored).symm
    | some address => exact .inr ⟨_, (pure_eq_ok.mp stored).symm⟩
  case tpoff64 =>
    obtain ⟨offset, _, rfl⟩ := resolved
    exact .inr ⟨offset, rfl⟩
  case relative | irelative | dtpmod64 => exact .inr ⟨_, resolved.symm⟩
  case dtpoff64 => exact .inl resolved.symm
  case copy => exact absurd rfl plain
  case other => contradiction

theorem resolveEntry_ok (resolved : resolveEntry host memory binaries bin r = .ok (text, effect)) :
    ∃ symbol, bin.symtabs[r.rSym]? = some symbol ∧ bin.symbolName memory symbol = .ok text ∧
      resolve host memory binaries bin r text = .ok effect := by
  unfold resolveEntry at resolved
  split at resolved
  · contradiction
  · rename_i symbol found
    simp only [bind_eq_ok, pure_eq_ok, Prod.mk.injEq] at resolved
    obtain ⟨_, read, _, resolved, rfl, rfl⟩ := resolved
    exact ⟨symbol, found, read, resolved⟩

/-- The name of the symbol with the entry's index. -/
def ELFBinary.Refers (bin : ELFBinary) (memory : Memory) (r : Elf64Rela) (name : CString) : Prop :=
  ∃ symbol, bin.symtabs[r.rSym]? = some symbol ∧ bin.symbolName memory symbol = .ok name

theorem ELFBinary.Refers.unique {other : CString} (left : bin.Refers memory r text) (right : bin.Refers memory r other) :
    text = other := by
  obtain ⟨symbol, found, named⟩ := left
  obtain ⟨again, same, alsoNamed⟩ := right
  cases found.symm.trans same
  exact Except.ok.inj (named.symm.trans alsoNamed)

theorem ELFBinary.Refers.terminated (refers : bin.Refers memory r text) : memory.Terminated := by
  obtain ⟨_, _, named⟩ := refers
  exact terminated_of_string named

section Entry

variable {loader next : DynLoader} {index entry : Nat}

theorem relocateEntry_cases (ran : loader.relocateEntry host index bin (r, entry) = .ok next) :
    ∃ name effect record, bin.Refers loader.memory r name ∧
      resolve host loader.memory loader.binaries bin r name = .ok effect ∧
      next.memory = effect.apply loader.memory ∧ next.processed = loader.processed ++ [record] ∧
      record.write = effect := by
  simp only [DynLoader.relocateEntry, bind_eq_ok, pure_eq_ok] at ran
  obtain ⟨⟨name, effect⟩, resolved, rfl⟩ := ran
  obtain ⟨symbol, found, named, effected⟩ := resolveEntry_ok resolved
  exact ⟨name, effect, _, ⟨symbol, found, named⟩, effected, rfl, rfl, rfl⟩

theorem relocateEntry_of_resolve (refers : bin.Refers loader.memory r text)
    (effected : resolve host loader.memory loader.binaries bin r text = .ok effect) :
    ∃ next, loader.relocateEntry host index bin (r, entry) = .ok next ∧ next.memory = effect.apply loader.memory := by
  obtain ⟨symbol, found, named⟩ := refers
  have resolved : Sloader.resolveEntry host loader.memory loader.binaries bin r = .ok (text, effect) := by
    simp only [Sloader.resolveEntry, found, named, effected, bind, Except.bind]
    rfl
  rw [DynLoader.relocateEntry, resolved]
  exact ⟨_, rfl, rfl⟩

end Entry

/-- The bytes of a string table that hold the names of the binary's symbols. -/
def ELFBinary.InStrings (binary : ELFBinary) (memory : Memory) (address : Address) : Prop :=
  ∃ symbol ∈ binary.symtabs, memory.bytes.InCString (symbol.stName.setWidth 64 + binary.strtab) address

theorem not_inStrings {address : Address}
    (ends : ∀ symbol ∈ bin.symtabs, ∃ length < (address - (symbol.stName.setWidth 64 + bin.strtab)).toNat,
      memory.bytes (symbol.stName.setWidth 64 + bin.strtab + BitVec.ofNat 64 length) = 0) :
    ¬ bin.InStrings memory address := by
  intro inStrings
  obtain ⟨symbol, inTable, running⟩ := inStrings
  obtain ⟨length, before, zero⟩ := ends symbol inTable
  exact running length before zero

def KeepsStrings (initial memory : Memory) (binaries : List ELFBinary) : Prop :=
  ∀ binary ∈ binaries, ∀ address, binary.InStrings initial address → memory.bytes address = initial.bytes address

theorem KeepsStrings.refl (initial : Memory) (binaries : List ELFBinary) : KeepsStrings initial initial binaries :=
  fun _ _ _ _ => rfl

theorem KeepsStrings.sameNames (kept : KeepsStrings initial memory binaries) :
    SameNames initial memory binaries := by
  intro binary member symbol inTable
  apply Bytes.cstring_congr
  intro address inside
  exact kept binary member address ⟨symbol, inTable, inside⟩

theorem SameNames.resolveEntry (same : SameNames initial memory binaries) (member : bin ∈ binaries) :
    resolveEntry host memory binaries bin r = resolveEntry host initial binaries bin r := by
  unfold Sloader.resolveEntry
  split
  · rfl
  · rename_i symbol found
    have named := symbolName_congr (same bin member symbol (List.mem_of_getElem? found))
    simp only [named, resolve, same.symbolAddr, same.tlsSymOffset, same.searchSym]

def Item.name (item : Item) (memory : Memory) : Option CString := do
  let symbol ← item.bin.symtabs[item.rela.rSym]?
  memory.bytes.cstring (symbol.stName.setWidth 64 + item.bin.strtab)

theorem Item.name_eq {item : Item}
    (resolved : resolveEntry host memory binaries item.bin item.rela = .ok (text, effect)) :
    item.name memory = some text := by
  obtain ⟨symbol, found, read, _⟩ := resolveEntry_ok resolved
  unfold ELFBinary.symbolName Memory.string at read
  split at read
  · rename_i same
    cases read
    simp [Item.name, found, same]
  · contradiction

def Item.write (host : Host) (memory : Memory) (binaries : List ELFBinary) (item : Item) : Write :=
  match resolveEntry host memory binaries item.bin item.rela with
  | .ok (_, write) => write
  | .error _ => .none

theorem Item.write_eq {item : Item}
    (resolved : resolveEntry host memory binaries item.bin item.rela = .ok (text, effect)) :
    item.write host memory binaries = effect := by
  simp only [Item.write, resolved]

structure SparesStrings (host : Host) (initial : Memory) (binaries : List ELFBinary) (items : List Item) : Prop where
  known : ∀ item ∈ items, item.bin ∈ binaries
  spared : ∀ item ∈ items, ∀ address, (item.write host initial binaries).Covers address →
    ∀ binary ∈ binaries, ¬ binary.InStrings initial address

/-- A way to see that a call spares the names: each of them ends before it
reaches a byte that is written. -/
theorem DynLoader.sparesStrings {loader : DynLoader} (bound : Nat)
    (ends : ∀ item ∈ loader.work, ∀ offset < (item.write host loader.memory loader.binaries).count,
      ∀ binary ∈ loader.binaries, ∀ symbol ∈ binary.symtabs, ∃ length < bound,
        length < ((item.write host loader.memory loader.binaries).start + BitVec.ofNat 64 offset -
          (symbol.stName.setWidth 64 + binary.strtab)).toNat ∧
        loader.memory.bytes (symbol.stName.setWidth 64 + binary.strtab + BitVec.ofNat 64 length) = 0) :
    SparesStrings host loader.memory loader.binaries loader.work := by
  refine ⟨fun item member => List.mem_of_getElem? (mem_work member).1, ?_⟩
  intro item member address covers binary known
  obtain ⟨offset, within, _, rfl⟩ := covers.exists_offset
  apply not_inStrings
  intro symbol inTable
  obtain ⟨length, _, before, zero⟩ := ends item member offset within binary known symbol inTable
  exact ⟨length, before, zero⟩

theorem SparesStrings.sublist {items rest : List Item} (spares : SparesStrings host initial binaries items)
    (sub : ∀ item ∈ rest, item ∈ items) : SparesStrings host initial binaries rest :=
  ⟨fun item member => spares.known item (sub item member),
    fun item member => spares.spared item (sub item member)⟩

variable {items before later : List Item} {item : Item} {after : Memory} {records : List Processed}

theorem pass_ranges (passed : pass host binaries memory items = .ok (after, records)) :
    after.ranges = memory.ranges := by
  induction items generalizing memory records with
  | nil =>
      cases passed
      rfl
  | cons item later ih =>
      obtain ⟨_, write, _, _, remaining, _⟩ := pass_cons_ok.mp passed
      exact (ih remaining).trans (write.apply_ranges memory)

theorem SparesStrings.step (spares : SparesStrings host initial binaries (item :: later))
    (kept : KeepsStrings initial memory binaries)
    (passed : pass host binaries memory (item :: later) = .ok (after, records)) :
    ∃ name rest, resolveEntry host initial binaries item.bin item.rela =
        .ok (name, item.write host initial binaries) ∧
      KeepsStrings initial ((item.write host initial binaries).apply memory) binaries ∧
      pass host binaries ((item.write host initial binaries).apply memory) later = .ok (after, rest) ∧
      records = item.record name binaries.length memory (item.write host initial binaries) :: rest := by
  obtain ⟨name, write, rest, resolved, passed, recorded⟩ := pass_cons_ok.mp passed
  rw [kept.sameNames.resolveEntry (spares.known item List.mem_cons_self)] at resolved
  have same := Item.write_eq resolved
  subst same
  refine ⟨name, rest, resolved, ?_, passed, recorded⟩
  intro binary member address inside
  have outside : ¬ (item.write host initial binaries).Covers address := fun covers =>
    spares.spared item List.mem_cons_self address covers binary member inside
  rw [Write.apply_outside outside]
  exact kept binary member address inside

theorem SparesStrings.keeps (spares : SparesStrings host initial binaries items)
    (kept : KeepsStrings initial memory binaries)
    (passed : pass host binaries memory items = .ok (after, records)) : KeepsStrings initial after binaries := by
  induction items generalizing memory records with
  | nil =>
      cases passed
      exact kept
  | cons item later ih =>
      obtain ⟨_, _, _, next, remaining, _⟩ := spares.step kept passed
      exact ih (spares.sublist fun _ => List.mem_cons_of_mem item) next remaining

theorem SparesStrings.resolves (spares : SparesStrings host initial binaries items)
    (kept : KeepsStrings initial memory binaries)
    (passed : pass host binaries memory items = .ok (after, records)) :
    ∀ item ∈ items, ∃ name, resolveEntry host initial binaries item.bin item.rela =
      .ok (name, item.write host initial binaries) := by
  induction items generalizing memory records with
  | nil => simp
  | cons head later ih =>
      obtain ⟨name, _, resolved, next, remaining, _⟩ := spares.step kept passed
      intro item member
      rcases List.mem_cons.mp member with rfl | inLater
      · exact ⟨name, resolved⟩
      · exact ih (spares.sublist fun _ => List.mem_cons_of_mem head) next remaining item inLater

theorem SparesStrings.outside (spares : SparesStrings host initial binaries items)
    (kept : KeepsStrings initial memory binaries)
    (passed : pass host binaries memory items = .ok (after, records)) {address : Address}
    (uncovered : ∀ item ∈ items, ¬ (item.write host initial binaries).Covers address) :
    after.bytes address = memory.bytes address := by
  induction items generalizing memory records with
  | nil =>
      cases passed
      rfl
  | cons item later ih =>
      obtain ⟨_, _, _, next, remaining, _⟩ := spares.step kept passed
      have tail := ih (spares.sublist fun _ => List.mem_cons_of_mem item) next remaining
        fun other member => uncovered other (List.mem_cons_of_mem item member)
      rw [tail, Write.apply_outside (uncovered item List.mem_cons_self)]

theorem SparesStrings.inside (spares : SparesStrings host initial binaries (before ++ item :: later))
    (kept : KeepsStrings initial memory binaries)
    (passed : pass host binaries memory (before ++ item :: later) = .ok (after, records)) {address : Address}
    (covers : (item.write host initial binaries).Covers address)
    (uncovered : ∀ other ∈ later, ¬ (other.write host initial binaries).Covers address) :
    ∃ middle records, pass host binaries memory before = .ok (middle, records) ∧
      after.bytes address = (item.write host initial binaries).byteAt middle address := by
  obtain ⟨middle, first, rest, passedBefore, passedRest, _⟩ := pass_append_ok.mp passed
  have keptMiddle := (spares.sublist fun _ => List.mem_append_left _).keeps kept passedBefore
  have sparesRest : SparesStrings host initial binaries (item :: later) :=
    spares.sublist fun _ => List.mem_append_right before
  obtain ⟨_, _, _, next, remaining, _⟩ := sparesRest.step keptMiddle passedRest
  refine ⟨middle, first, passedBefore, ?_⟩
  rw [(sparesRest.sublist fun _ => List.mem_cons_of_mem item).outside next remaining uncovered,
    Write.apply_inside covers]

theorem SparesStrings.completes (spares : SparesStrings host initial binaries items)
    (kept : KeepsStrings initial memory binaries)
    (resolves : ∀ item ∈ items, ∃ name write,
      resolveEntry host initial binaries item.bin item.rela = .ok (name, write)) :
    ∃ after records, pass host binaries memory items = .ok (after, records) := by
  induction items generalizing memory with
  | nil => exact ⟨memory, [], rfl⟩
  | cons item later ih =>
      obtain ⟨name, write, resolved⟩ := resolves item List.mem_cons_self
      have same := Item.write_eq resolved
      have keptNext : KeepsStrings initial (write.apply memory) binaries := by
        intro binary member address inside
        have outside : ¬ write.Covers address := fun covers =>
          spares.spared item List.mem_cons_self address (same ▸ covers) binary member inside
        rw [Write.apply_outside outside]
        exact kept binary member address inside
      obtain ⟨after, records, passed⟩ := ih (spares.sublist fun _ => List.mem_cons_of_mem item) keptNext
        fun other member => resolves other (List.mem_cons_of_mem item member)
      refine ⟨after, _, pass_cons_ok.mpr ⟨name, write, records, ?_, passed, rfl⟩⟩
      rw [kept.sameNames.resolveEntry (spares.known item List.mem_cons_self)]
      exact resolved

end Sloader
