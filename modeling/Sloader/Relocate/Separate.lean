import Sloader.Relocate.Words
import Sloader.Sample

namespace Sloader

open Data

/-! A call of `Relocate` on binaries none of which has been relocated, whose
entries have targets that lie apart: each target ends up with the word that its
entry prescribes, whatever the order of the entries. -/

/-- The types whose entries store one word or nothing. -/
def RelocationType.isWord : RelocationType → Bool
  | .globDat | .jumpSlot | .abs64 | .relative | .tpoff64 | .dtpmod64 | .dtpoff64 => true
  | .copy | .irelative | .other _ => false

def everyItem (binaries : List ELFBinary) : List Item :=
  binaries.zipIdx.flatMap itemsOf

/-- The word is what the item prescribes, given memory as it was loaded. -/
def Item.Prescribes (host : Host) (memory : Memory) (binaries : List ELFBinary) (item : Item) (name : CString)
    (word : BitVec 64) : Prop :=
  let unchanged := memory.bytes.load64 item.target
  match item.rela.rType with
  | .globDat | .jumpSlot => word = (bindingAddr host memory binaries name).getD unchanged
  | .abs64 => word = ((bindingAddr host memory binaries name).map (· + item.rela.rAddend)).getD unchanged
  | .relative => word = item.bin.baseAddr + item.rela.rAddend
  | .tpoff64 => tlsSymOffset host memory binaries name = .ok word
  | .dtpmod64 => word = 1
  | .dtpoff64 => word = unchanged
  | .copy | .irelative | .other _ => False

variable {host : Host} {memory : Memory} {binaries : List ELFBinary} {item : Item} {loader after : DynLoader}

theorem mem_everyItem :
    item ∈ everyItem binaries ↔
      binaries[item.binIndex]? = some item.bin ∧ item.bin.entries[item.index]? = some item.rela := by
  simp only [everyItem, List.mem_flatMap, Prod.exists, List.mem_zipIdx_iff_getElem?, mem_itemsOf]
  constructor
  · rintro ⟨binary, index, found, rfl, rfl, entry⟩
    exact ⟨found, entry⟩
  · rintro ⟨found, entry⟩
    exact ⟨item.bin, item.binIndex, found, rfl, rfl, entry⟩

theorem pending_eq_self {relocated : List PathKey} {placed : List (ELFBinary × Nat)}
    (unmarked : ∀ entry ∈ placed, pathKey entry.1.path ∉ relocated)
    (paths : placed.Pairwise fun left right => pathKey left.1.path ≠ pathKey right.1.path) :
    pending relocated placed = placed := by
  induction placed generalizing relocated with
  | nil => rfl
  | cons head rest ih =>
      obtain ⟨headDiffers, restDiffers⟩ := List.pairwise_cons.mp paths
      have tail := @ih (pathKey head.1.path :: relocated) (by
        intro entry member known
        rcases List.mem_cons.mp known with same | old
        · exact headDiffers entry member same.symm
        · exact unmarked entry (List.mem_cons_of_mem head member) old) restDiffers
      simp only [pending, unmarked head List.mem_cons_self, if_false, tail]

theorem work_eq_everyItem (fresh : ∀ binary ∈ loader.binaries, pathKey binary.path ∉ loader.relocated)
    (paths : loader.binaries.Pairwise fun left right => pathKey left.path ≠ pathKey right.path) :
    loader.work = everyItem loader.binaries := by
  unfold DynLoader.work everyItem
  rw [pending_eq_self]
  · intro entry member
    exact fresh entry.1 (List.fst_mem_of_mem_zipIdx member)
  · have mapped : (loader.binaries.zipIdx.map Prod.fst).Pairwise
        fun left right : ELFBinary => pathKey left.path ≠ pathKey right.path := by
      rw [List.zipIdx_map_fst]
      exact paths
    rwa [List.pairwise_map] at mapped

theorem Item.write_word (word : item.rela.rType.isWord = true) :
    item.write host memory binaries = .none ∨ ∃ value, item.write host memory binaries = .word item.target value := by
  unfold Item.write
  split
  · rename_i resolved
    obtain ⟨_, _, _, resolved⟩ := resolveEntry_ok resolved
    apply resolve_word resolved
    intro copy
    simp [copy, RelocationType.isWord] at word
  · exact .inl rfl

theorem Item.write_covers {address : Address} (word : item.rela.rType.isWord = true)
    (covers : (item.write host memory binaries).Covers address) : Inside item.target 8 address := by
  rcases Item.write_word word with nothing | ⟨value, stored⟩
  · rw [nothing] at covers
    exact absurd covers (Nat.not_lt_zero _)
  · rw [stored] at covers
    exact covers

theorem Item.prescribes {name : CString} (word : item.rela.rType.isWord = true)
    (resolved : resolveEntry host memory binaries item.bin item.rela =
      .ok (name, item.write host memory binaries)) :
    (item.write host memory binaries = .none ∧
        item.Prescribes host memory binaries name (memory.bytes.load64 item.target)) ∨
      ∃ value, item.write host memory binaries = .word item.target value ∧
        item.Prescribes host memory binaries name value := by
  obtain ⟨symbol, _, read, resolved⟩ := resolveEntry_ok resolved
  have terminated : memory.Terminated := terminated_of_string read
  unfold resolve at resolved
  unfold Item.Prescribes
  cases type : item.rela.rType <;>
    simp only [type, RelocationType.isWord, Bool.false_eq_true, bind_eq_ok, pure_eq_ok, symbolAddr_eq terminated,
      Except.ok.injEq] at resolved word ⊢
  case globDat | jumpSlot | abs64 =>
    obtain ⟨binding, rfl, stored⟩ := resolved
    cases bound : bindingAddr host memory binaries name with
    | none =>
        simp only [bound] at stored
        exact .inl ⟨(pure_eq_ok.mp stored).symm, rfl⟩
    | some address =>
        simp only [bound] at stored
        exact .inr ⟨_, (pure_eq_ok.mp stored).symm, rfl⟩
  case tpoff64 =>
    obtain ⟨offset, found, stored⟩ := resolved
    exact .inr ⟨offset, stored.symm, found⟩
  case relative | dtpmod64 => exact .inr ⟨_, resolved.symm, rfl⟩
  case dtpoff64 => exact .inl ⟨resolved.symm, trivial⟩

/-- Entries of the seven types with targets apart from each other and from all names. -/
structure Separate (memory : Memory) (binaries : List ELFBinary) (items : List Item) : Prop where
  known : ∀ item ∈ items, item.bin ∈ binaries
  word : ∀ item ∈ items, item.rela.rType.isWord = true
  apart : items.Pairwise fun left right => Apart left.target 8 right.target 8
  strings : ∀ item ∈ items, ∀ binary ∈ binaries, ∀ address, Inside item.target 8 address →
    ¬ binary.InStrings memory address

namespace Separate

variable {items before later order : List Item} {last : Memory} {records : List Processed} {address : Address}

theorem spares (separate : Separate memory binaries items) : SparesStrings host memory binaries items where
  known := separate.known
  spared item member address covers binary inBinaries :=
    separate.strings item member binary inBinaries address (Item.write_covers (separate.word item member) covers)

theorem perm (separate : Separate memory binaries items) (order_perm : order.Perm items) :
    Separate memory binaries order where
  known item member := separate.known item (order_perm.mem_iff.mp member)
  word item member := separate.word item (order_perm.mem_iff.mp member)
  apart := order_perm.symm.pairwise separate.apart fun apart => apart.symm
  strings item member := separate.strings item (order_perm.mem_iff.mp member)

theorem others (separate : Separate memory binaries (before ++ item :: later)) (inside : Inside item.target 8 address)
    {other : Item} (member : other ∈ before ∨ other ∈ later) :
    ¬ (other.write host memory binaries).Covers address := by
  intro covers
  obtain ⟨_, rest, cross⟩ := List.pairwise_append.mp separate.apart
  have known : other ∈ before ++ item :: later := by
    rcases member with earlier | later
    · exact List.mem_append_left _ earlier
    · exact List.mem_append_right _ (List.mem_cons_of_mem item later)
  have covered := Item.write_covers (separate.word other known) covers
  rcases member with earlier | later
  · exact cross other earlier item List.mem_cons_self address covered inside
  · exact (List.pairwise_cons.mp rest).1 other later address inside covered

theorem target (separate : Separate memory binaries items)
    (passed : pass host binaries memory items = .ok (last, records)) (member : item ∈ items)
    (inside : Inside item.target 8 address) :
    last.bytes address = ((item.write host memory binaries).apply memory).bytes address := by
  obtain ⟨before, later, rfl⟩ := List.append_of_mem member
  rcases Item.write_word (separate.word item member) with nothing | ⟨value, stored⟩
  · rw [nothing]
    apply separate.spares.outside (.refl memory binaries) passed
    intro other inItems covers
    rcases List.mem_append.mp inItems with earlier | rest
    · exact separate.others inside (.inl earlier) covers
    · rcases List.mem_cons.mp rest with rfl | later
      · rw [nothing] at covers
        exact absurd covers (Nat.not_lt_zero _)
      · exact separate.others inside (.inr later) covers
  · have covers : (item.write host memory binaries).Covers address := by
      rw [stored]
      exact inside
    obtain ⟨middle, _, _, same⟩ := separate.spares.inside (.refl memory binaries) passed covers
      fun other later => separate.others inside (.inr later)
    rw [same, Write.apply_inside covers, stored]
    rfl

theorem untouched (separate : Separate memory binaries items)
    (passed : pass host binaries memory items = .ok (last, records))
    (outside : ∀ item ∈ items, ¬ Inside item.target 8 address) : last.bytes address = memory.bytes address := by
  apply separate.spares.outside (.refl memory binaries) passed
  intro item member covers
  exact outside item member (Item.write_covers (separate.word item member) covers)

/-- Every order of the items leads to the same memory. -/
theorem reordered (separate : Separate memory binaries items)
    (passed : pass host binaries memory items = .ok (last, records)) (order_perm : order.Perm items) :
    ∃ records, pass host binaries memory order = .ok (last, records) := by
  have separateOrder := separate.perm order_perm
  obtain ⟨other, otherRecords, passedOrder⟩ := separateOrder.spares.completes (.refl memory binaries) (by
    intro item member
    obtain ⟨name, resolved⟩ := separate.spares.resolves (.refl memory binaries) passed item
      (order_perm.mem_iff.mp member)
    exact ⟨name, _, resolved⟩)
  have sameBytes : other.bytes = last.bytes := by
    funext address
    by_cases covered : ∃ item ∈ items, Inside item.target 8 address
    · obtain ⟨item, member, inside⟩ := covered
      rw [separate.target passed member inside,
        separateOrder.target passedOrder (order_perm.mem_iff.mpr member) inside]
    · have outside : ∀ item ∈ items, ¬ Inside item.target 8 address := fun item member inside =>
        covered ⟨item, member, inside⟩
      rw [separate.untouched passed outside,
        separateOrder.untouched passedOrder fun item member => outside item (order_perm.mem_iff.mp member)]
  have same : other = last := by
    have keptLast := pass_ranges passed
    have keptOther := pass_ranges passedOrder
    cases other
    cases last
    simp_all
  subst same
  exact ⟨otherRecords, passedOrder⟩

theorem prescribed (separate : Separate memory binaries items)
    (passed : pass host binaries memory items = .ok (last, records)) (member : item ∈ items) :
    ∃ name, item.name memory = some name ∧
      item.Prescribes host memory binaries name (last.bytes.load64 item.target) := by
  obtain ⟨name, resolved⟩ := separate.spares.resolves (.refl memory binaries) passed item member
  refine ⟨name, Item.name_eq resolved, ?_⟩
  have word : last.bytes.load64 item.target =
      ((item.write host memory binaries).apply memory).bytes.load64 item.target :=
    Bytes.load64_congr fun address inside => separate.target passed member inside
  rcases Item.prescribes (separate.word item member) resolved with ⟨nothing, prescribes⟩ | ⟨value, stored, prescribes⟩
  · rw [word, nothing]
    exact prescribes
  · rw [word, stored]
    have written : ((Write.word item.target value).apply memory).bytes.load64 item.target = value :=
      Bytes.load64_store64 value
    rw [written]
    exact prescribes

end Separate

theorem relocate_prescribed
    (paths : loader.binaries.Pairwise fun left right => pathKey left.path ≠ pathKey right.path)
    (fresh : ∀ binary ∈ loader.binaries, pathKey binary.path ∉ loader.relocated)
    (word : ∀ item ∈ everyItem loader.binaries, item.rela.rType.isWord = true)
    (apart : (everyItem loader.binaries).Pairwise fun left right => Apart left.target 8 right.target 8)
    (strings : ∀ item ∈ everyItem loader.binaries, ∀ binary ∈ loader.binaries, ∀ address,
      Inside item.target 8 address → ¬ binary.InStrings loader.memory address)
    (ran : loader.relocate host = .ok after) :
    (∀ item ∈ everyItem loader.binaries, ∃ name, item.name loader.memory = some name ∧
      item.Prescribes host loader.memory loader.binaries name (after.memory.bytes.load64 item.target)) ∧
    (∀ address, (∀ item ∈ everyItem loader.binaries, ¬ Inside item.target 8 address) →
      after.memory.bytes address = loader.memory.bytes address) ∧
    ∀ order, order.Perm (everyItem loader.binaries) →
      ∃ records, pass host loader.binaries loader.memory order = .ok (after.memory, records) := by
  have known : ∀ item ∈ everyItem loader.binaries, item.bin ∈ loader.binaries := fun item member =>
    List.mem_of_getElem? (mem_everyItem.mp member).1
  have separate : Separate loader.memory loader.binaries (everyItem loader.binaries) :=
    ⟨known, word, apart, strings⟩
  obtain ⟨records, passed, _⟩ := DynLoader.relocate_pass ran
  rw [work_eq_everyItem fresh paths] at passed
  refine ⟨?_, ?_, ?_⟩
  · intro item member
    exact separate.prescribed passed member
  · intro address outside
    exact separate.untouched passed outside
  · intro order order_perm
    exact separate.reordered passed order_perm

/-- An executable with a `GLOB_DAT`, a `RELATIVE` and a `JUMP_SLOT` entry, the
last for a symbol that nobody defines, and a library with a `64`, a `DTPMOD64`
and a `DTPOFF64` entry. -/
def pointerHost : Host :=
  -- the strings are "a", "x" and "y", at 2, 4 and 6
  let strings : List (BitVec 64) := [0x79007800610000]
  let executable : Sample.Object :=
    { data := [0, 0, 0], strings, needed := [2]
      symbols := [0, 0, 0, 0x1000000004, 0, 0, 0x1000000006, 0, 0]
      relas := [232, 0x100000006, 0, 240, 8, 240, 248, 0x200000007, 0] }
  let library : Sample.Object :=
    { data := [0, 0, 0, 0], strings
      symbols := [0, 0, 0, 0x1001000000004, 232, 8]
      relas := [240, 0x100000001, 4, 248, 16, 0, 256, 17, 0] }
  Sample.host [(ascii "m", executable.file), (ascii "a", library.file)] fun _ => none

@[irreducible] def pointerLoader : DynLoader :=
  Sample.started pointerHost (ascii "/bin/m")

theorem pointerLoader_separate :
    (pointerLoader.binaries.Pairwise fun left right => pathKey left.path ≠ pathKey right.path) ∧
    (∀ binary ∈ pointerLoader.binaries, pathKey binary.path ∉ pointerLoader.relocated) ∧
    (∀ item ∈ everyItem pointerLoader.binaries, item.rela.rType.isWord = true) ∧
    ((everyItem pointerLoader.binaries).Pairwise fun left right =>
      8 ≤ (right.target - left.target).toNat ∧ 8 ≤ (left.target - right.target).toNat) ∧
    (∀ item ∈ everyItem pointerLoader.binaries, ∀ binary ∈ pointerLoader.binaries, ∀ symbol ∈ binary.symtabs,
      ∀ offset < 8, ∃ length < 2,
        length < (item.target + BitVec.ofNat 64 offset - (symbol.stName.setWidth 64 + binary.strtab)).toNat ∧
        pointerLoader.memory.bytes (symbol.stName.setWidth 64 + binary.strtab + BitVec.ofNat 64 length) = 0) ∧
    (pointerLoader.relocate pointerHost).isOk = true := by
  decide +kernel

theorem relocate_prescribed_pointerLoader :
    ∃ after, pointerLoader.relocate pointerHost = .ok after ∧
      (∀ item ∈ everyItem pointerLoader.binaries, ∃ name, item.name pointerLoader.memory = some name ∧
        item.Prescribes pointerHost pointerLoader.memory pointerLoader.binaries name
          (after.memory.bytes.load64 item.target)) ∧
      (∀ address, (∀ item ∈ everyItem pointerLoader.binaries, ¬ Inside item.target 8 address) →
        after.memory.bytes address = pointerLoader.memory.bytes address) ∧
      ∀ order, order.Perm (everyItem pointerLoader.binaries) →
        ∃ records, pass pointerHost pointerLoader.binaries pointerLoader.memory order =
          .ok (after.memory, records) := by
  obtain ⟨paths, fresh, word, starts, terminators, completes⟩ := pointerLoader_separate
  obtain ⟨after, ran⟩ := exists_of_isOk completes
  refine ⟨after, ran, @relocate_prescribed pointerHost pointerLoader after paths fresh word ?_ ?_ ran⟩
  · exact starts.imp fun outside => apart_of_starts outside.1 outside.2
  · intro item member binary known address inside
    obtain ⟨offset, within, _, rfl⟩ := inside.exists_offset
    apply not_inStrings
    intro symbol inTable
    obtain ⟨length, _, before, ends⟩ := terminators item member binary known symbol inTable offset within
    exact ⟨length, before, ends⟩

end Sloader
