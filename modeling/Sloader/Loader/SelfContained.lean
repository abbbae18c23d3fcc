import Sloader.Binary.Footprint
import Sloader.Loader.Segments

namespace Sloader

open Data

/-! Files whose dynamic array, strings and tables all lie in their segments.  What
is parsed of such a file does not depend on the rest of memory. -/

/-- A string that runs on in one memory does in another that agrees with it there. -/
theorem Data.Bytes.InCString.other {left right : Bytes} {start address : Address} (running : left.InCString start address)
    (agree : ∀ place, right.InCString start place → left place = right place) : right.InCString start address := by
  intro offset
  induction offset using Nat.strong_induction_on with
  | _ offset ih =>
      intro before
      have bound := (address - start).isLt
      have reached : right.InCString start (start + BitVec.ofNat 64 offset) := by
        intro earlier within
        rw [offset_toNat (by omega)] at within
        exact ih earlier within (by omega)
      rw [← agree _ reached]
      exact running offset before

/-- A string that has an end goes no further. -/
theorem Data.Bytes.cstringFrom_end {bytes : Bytes} {fuel : Nat} {start : Address} {text : List UInt8}
    (read : bytes.cstringFrom fuel start = some text) : bytes (start + BitVec.ofNat 64 text.length) = 0 := by
  induction fuel generalizing start text with
  | zero => simp [Bytes.cstringFrom] at read
  | succ fuel ih =>
      simp only [Bytes.cstringFrom] at read
      split at read
      · cases read
        rw [List.length_nil, BitVec.add_zero]
        assumption
      · obtain ⟨rest, tail, rfl⟩ := Option.map_eq_some_iff.mp read
        rw [List.length_cons, ← succ_offset]
        exact ih tail

theorem Data.Bytes.InCString.inside {bytes : Bytes} {start address : Address} {text : List UInt8}
    (running : bytes.InCString start address) (read : bytes.cstring start = some text) :
    Inside start (text.length + 1) address := by
  by_contra outside
  have beyond : text.length < (address - start).toNat := Nat.lt_of_succ_le (Nat.le_of_not_lt outside)
  exact running text.length beyond (Bytes.cstringFrom_end read)

namespace ELFBinary

/-- The addresses that the segments occupy. -/
def InSegments (binary : ELFBinary) (address : Address) : Prop :=
  ∃ ph ∈ binary.filePhdrs, ph.pType = .load ∧ Inside (binary.baseAddr + ph.pVaddr) ph.pMemsz.toNat address

/-- The byte that a segment has at an address. -/
def segmentByte (binary : ELFBinary) (ph : Elf64Phdr) (address : Address) : UInt8 :=
  let offset := (address - (binary.baseAddr + ph.pVaddr)).toNat
  if offset < ph.pFilesz.toNat then binary.file.getD (ph.pOffset.toNat + offset) 0 else 0

/-- The segments as `Load` leaves them, and zero everywhere else. -/
def image (binary : ELFBinary) : Memory where
  bytes address :=
    match binary.filePhdrs.find? fun ph =>
        ph.pType = .load && decide (Inside (binary.baseAddr + ph.pVaddr) ph.pMemsz.toNat address) with
    | some ph => binary.segmentByte ph address
    | none => 0
  ranges := []

/-- The file is parsed from its segments alone. -/
def SelfContained (binary : ELFBinary) : Prop :=
  ∀ address, binary.Footprint binary.image address → binary.InSegments address

/-- One of the segments has all of these bytes. -/
def covers (binary : ELFBinary) (start : Address) (count : Nat) : Bool :=
  count = 0 || binary.filePhdrs.any fun ph =>
    ph.pType = .load && decide ((start - (binary.baseAddr + ph.pVaddr)).toNat + count ≤ ph.pMemsz.toNat)

/-- One of the segments has the string and the zero that ends it. -/
def coversString (binary : ELFBinary) (start : Address) : Bool :=
  match binary.image.bytes.cstring start with
  | some text => binary.covers start (text.length + 1)
  | none => false

/-- A test for `SelfContained`. -/
def coversFootprint (binary : ELFBinary) : Bool :=
  binary.covers (binary.baseAddr + binary.fileDynamic.pVaddr) binary.fileDynamic.pFilesz.toNat &&
    (binary.dynamicEntries binary.image.bytes).all (fun dyn =>
      !decide (dyn.dTag = .needed ∨ dyn.dTag = .runpath ∨ dyn.dTag = .rpath) ||
        binary.coversString (binary.strtab + dyn.dVal)) &&
    binary.covers binary.rela (sizeofRela * binary.relas.length) &&
    binary.covers binary.jmprel (sizeofRela * binary.pltrelas.length) &&
    (decide (binary.symtab = 0) || binary.covers binary.symtab (sizeofSym * (binary.symtabs.length + 1))) &&
    binary.symtabs.all fun symbol => binary.coversString (symbol.stName.setWidth 64 + binary.strtab)

variable {memory left right : Memory} {binary opened parsed : ELFBinary} {ph : Elf64Phdr} {address start : Address}
  {count : Nat}

theorem covers_inSegments (covered : binary.covers start count = true) (inside : Inside start count address) :
    binary.InSegments address := by
  have some : count ≠ 0 := fun zero => Nat.not_lt_zero _ (zero ▸ inside)
  simp only [covers, some, decide_false, Bool.false_or, List.any_eq_true, Bool.and_eq_true, decide_eq_true_eq] at covered
  obtain ⟨ph, member, wanted, within⟩ := covered
  refine ⟨ph, member, wanted, ?_⟩
  unfold Inside at inside ⊢
  bv_omega

theorem coversString_inSegments (covered : binary.coversString start = true)
    (running : binary.image.bytes.InCString start address) : binary.InSegments address := by
  unfold coversString at covered
  split at covered
  · rename_i text read
    exact covers_inSegments covered (running.inside read)
  · contradiction

theorem SelfContained.of_coversFootprint (covered : binary.coversFootprint = true) : binary.SelfContained := by
  simp only [coversFootprint, Bool.and_eq_true, Bool.or_eq_true, List.all_eq_true, decide_eq_true_eq,
    Bool.not_eq_true', decide_eq_false_iff_not] at covered
  obtain ⟨⟨⟨⟨⟨array, texts⟩, relas⟩, pltrelas⟩, symtabs⟩, names⟩ := covered
  intro address reads
  cases reads with
  | dynamic inside => exact covers_inSegments array inside
  | text member named running =>
      cases texts _ member with
      | inl unnamed => exact absurd named unnamed
      | inr covered => exact coversString_inSegments covered running
  | relas inside => exact covers_inSegments relas inside
  | pltrelas inside => exact covers_inSegments pltrelas inside
  | symtabs present inside => exact covers_inSegments (symtabs.resolve_left present) inside
  | name member running => exact coversString_inSegments (names _ member) running

theorem HoldsSegment.byte (holds : HoldsSegment memory binary ph)
    (inside : Inside (binary.baseAddr + ph.pVaddr) ph.pMemsz.toNat address) :
    memory.bytes address = binary.segmentByte ph address := by
  have place := add_offset_eq (binary.baseAddr + ph.pVaddr) address
  rw [segmentByte]
  split
  · rename_i within
    have copied := holds.1 _ within
    rw [place] at copied
    rw [List.getD_eq_getElem?_getD, copied]
    rfl
  · rename_i past
    have cleared := holds.2 _ (Nat.le_of_not_lt past) inside
    rw [place] at cleared
    exact cleared

theorem HoldsSegments.image (holds : binary.HoldsSegments memory) (inside : binary.InSegments address) :
    memory.bytes address = binary.image.bytes address := by
  obtain ⟨ph, member, wanted, within⟩ := inside
  rw [ELFBinary.image]
  dsimp only
  split
  · rename_i found isFound
    have covers := List.find?_some isFound
    simp only [Bool.and_eq_true, decide_eq_true_eq] at covers
    exact (holds found (List.mem_of_find?_eq_some isFound) covers.1).1.byte covers.2
  · rename_i missing
    have uncovered := List.find?_eq_none.mp missing ph member
    simp [wanted, within] at uncovered

theorem SelfContained.footprint (contained : binary.SelfContained) (holds : binary.HoldsSegments memory)
    (reads : binary.Footprint memory address) : binary.InSegments address := by
  have agree {place : Address} (inImage : binary.Footprint binary.image place) :
      memory.bytes place = binary.image.bytes place := holds.image (contained place inImage)
  apply contained
  cases reads with
  | dynamic inside => exact .dynamic inside
  | text member named running =>
      have entries : binary.dynamicEntries memory.bytes = binary.dynamicEntries binary.image.bytes :=
        dynamicEntries_agree fun place inside => agree (.dynamic inside)
      rw [entries] at member
      exact Footprint.text member named (running.other fun place reached => agree (Footprint.text member named reached))
  | relas inside => exact .relas inside
  | pltrelas inside => exact .pltrelas inside
  | symtabs present inside => exact .symtabs present inside
  | name member running =>
      exact Footprint.name member (running.other fun place reached => agree (Footprint.name member reached))

/-- Whatever else memory holds, the binary is parsed the same way. -/
theorem SelfContained.parse (contained : parsed.SelfContained) (ran : opened.parseDynamic left = .ok parsed)
    (holdsLeft : parsed.HoldsSegments left) (holdsRight : parsed.HoldsSegments right) :
    opened.parseDynamic right = .ok parsed := by
  apply parseDynamic_footprint ran
  intro address reads
  have inside := contained.footprint holdsLeft reads
  rw [holdsLeft.image inside, holdsRight.image inside]

end ELFBinary

end Sloader
