import Sloader.Binary.Load
import Sloader.Sample

namespace Sloader

open Data

/-! The dynamic array.  What `ParseDynamic` makes of it depends on the values that
stand under each tag, and on nothing else about the order of the entries. -/

def valuesOf (entries : List Elf64Dyn) (tag : DynamicTag) : List Elf64Xword :=
  (entries.filter (·.dTag = tag)).map Elf64Dyn.dVal

theorem valuesOf_append (left right : List Elf64Dyn) (tag : DynamicTag) :
    valuesOf (left ++ right) tag = valuesOf left tag ++ valuesOf right tag := by
  rw [valuesOf, List.filter_append, List.map_append]
  rfl

namespace ELFBinary

variable {memory : Memory} {binary after : ELFBinary} {dyn : Elf64Dyn} {entries : List Elf64Dyn}

/-- `ParseDynamic` for a given array of entries. -/
def parseEntries (memory : Memory) (binary : ELFBinary) (entries : List Elf64Dyn) : Except Stop ELFBinary := do
  check (binary.baseAddr != 0 || binary.ehdr.eType == .exec) "base_addr_ != 0UL || ehdr_.e_type == ET_EXEC"
  check (binary.fileDynamic.pFilesz.toNat % sizeofDyn == 0) "(file_dynamic_.p_filesz % dyn_size) == (0U)"
  let binary := entries.foldl parseStrtab binary
  check (binary.strtab != 0 || binary.ehdr.eType == .exec) "strtab_ != nullptr || ehdr_.e_type == ET_EXEC"
  let binary ← entries.foldlM (parseTag memory) binary
  let binary ← binary.parseRelas memory
  let binary ← binary.parsePltrelas memory
  binary.parseSymtabs memory

/-- The array is the one that the image has at `PT_DYNAMIC`. -/
theorem parseDynamic_eq (memory : Memory) (binary : ELFBinary) :
    binary.parseDynamic memory = binary.parseEntries memory (binary.dynamicEntries memory.bytes) :=
  rfl

/-- The string table that the values under `DT_STRTAB` and `DT_STRSZ` give. -/
def withStrings (binary : ELFBinary) (values : DynamicTag → List Elf64Xword) : ELFBinary :=
  { binary with
    strtab := (values .strtab).foldl (fun _ value => value + binary.baseAddr) binary.strtab
    strsz := (values .strsz).foldl (fun _ value => value) binary.strsz }

theorem foldl_parseStrtab_eq (entries : List Elf64Dyn) (binary : ELFBinary) :
    entries.foldl parseStrtab binary = binary.withStrings (valuesOf entries) := by
  induction entries generalizing binary with
  | nil => rfl
  | cons dyn rest ih =>
      rw [List.foldl_cons, ih]
      cases tag : dyn.dTag <;> simp [withStrings, parseStrtab, valuesOf, tag]

/-- The string at an offset of the string table. -/
def stringAt (memory : Memory) (binary : ELFBinary) (value : Elf64Xword) : CString :=
  (memory.bytes.cstring (binary.strtab + value)).getD []

/-- What the second pass takes over, the last value under each tag, with all the
names under `DT_NEEDED`. -/
def collected (memory : Memory) (binary : ELFBinary) (values : DynamicTag → List Elf64Xword) : ELFBinary :=
  { binary with
    neededs := binary.neededs ++ (values .needed).map (binary.stringAt memory)
    runpath := (values .runpath).foldl (fun _ value => some (binary.stringAt memory value)) binary.runpath
    rpath := (values .rpath).foldl (fun _ value => some (binary.stringAt memory value)) binary.rpath
    rela := (values .rela).foldl (fun _ value => binary.baseAddr + value) binary.rela
    relasz := (values .relasz).foldl (fun _ value => value) binary.relasz
    relaent := (values .relaent).foldl (fun _ value => value) binary.relaent
    relacount := (values .relacount).foldl (fun _ value => value) binary.relacount
    jmprel := (values .jmprel).foldl (fun _ value => binary.baseAddr + value) binary.jmprel
    pltrelsz := (values .pltrelsz).foldl (fun _ value => value) binary.pltrelsz
    pltrel := (values .pltrel).foldl (fun _ value => value) binary.pltrel
    pltrelent := (values .pltrel).foldl
      (fun _ value => BitVec.ofNat 64 (if value = dtRela then sizeofRela else sizeofRel)) binary.pltrelent
    symtab := (values .symtab).foldl (fun _ value => binary.baseAddr + value) binary.symtab
    syment := (values .syment).foldl (fun _ value => value) binary.syment
    init := (values .init).foldl (fun _ value => value) binary.init
    fini := (values .fini).foldl (fun _ value => value) binary.fini
    initArray := (values .initArray).foldl (fun _ value => value) binary.initArray
    initArraysz := (values .initArraysz).foldl (fun _ value => value) binary.initArraysz
    finiArray := (values .finiArray).foldl (fun _ value => value) binary.finiArray
    finiArraysz := (values .finiArraysz).foldl (fun _ value => value) binary.finiArraysz }

/-- What the second pass asks of an entry. -/
def TagFits (memory : Memory) (strtab : Address) (dyn : Elf64Dyn) : Prop :=
  match dyn.dTag with
  | .needed | .runpath | .rpath => (memory.bytes.cstring (strtab + dyn.dVal)).isSome = true
  | .pltrel => dyn.dVal = dtRela ∨ dyn.dVal = dtRel
  | .syment => dyn.dVal = BitVec.ofNat 64 sizeofSym
  | _ => True

theorem string_return {start : Address} {update : CString → ELFBinary} :
    (do let text ← memory.string start; return update text) = Except.ok after ↔
      (memory.bytes.cstring start).isSome = true ∧ after = update ((memory.bytes.cstring start).getD []) := by
  rw [Memory.string]
  cases memory.bytes.cstring start with
  | none => simp [bind, Except.bind]
  | some text =>
      change Except.ok (update text) = Except.ok after ↔ _
      simp [eq_comm]

theorem check_return {condition : Bool} {text : String} {update : ELFBinary} :
    (do check condition text; return update) = Except.ok after ↔ condition = true ∧ after = update := by
  cases condition with
  | false => simp [check, bind, Except.bind]
  | true =>
      change Except.ok update = Except.ok after ↔ _
      simp [eq_comm]

theorem collected_append (binary : ELFBinary) (left right : DynamicTag → List Elf64Xword) :
    (binary.collected memory left).collected memory right =
      binary.collected memory fun tag => left tag ++ right tag := by
  simp only [collected, List.foldl_append, List.map_append, List.append_assoc]
  rfl

theorem parseTag_eq_ok :
    binary.parseTag memory dyn = .ok after ↔
      TagFits memory binary.strtab dyn ∧ after = binary.collected memory (valuesOf [dyn]) := by
  cases tag : dyn.dTag
  case needed =>
    simp only [parseTag, tag, TagFits, string_return]
    simp [collected, valuesOf, tag, stringAt]
  case runpath =>
    simp only [parseTag, tag, TagFits, string_return]
    simp [collected, valuesOf, tag, stringAt]
  case rpath =>
    simp only [parseTag, tag, TagFits, string_return]
    simp [collected, valuesOf, tag, stringAt]
  case pltrel =>
    simp only [parseTag, tag, TagFits, check_return, Bool.or_eq_true, beq_iff_eq]
    simp [collected, valuesOf, tag]
  case syment =>
    simp only [parseTag, tag, TagFits, check_return, beq_iff_eq]
    simp [collected, valuesOf, tag]
  all_goals
    simp only [parseTag, tag, TagFits, true_and, Except.ok.injEq]
    rw [eq_comm]
    simp [collected, valuesOf, tag]

theorem foldlM_parseTag_eq_ok :
    entries.foldlM (parseTag memory) binary = .ok after ↔
      (∀ dyn ∈ entries, TagFits memory binary.strtab dyn) ∧
        after = binary.collected memory (valuesOf entries) := by
  induction entries generalizing binary with
  | nil =>
      rw [List.foldlM_nil, pure_eq_ok, eq_comm]
      simp [collected, valuesOf]
  | cons dyn rest ih =>
      have joined : (binary.collected memory (valuesOf [dyn])).collected memory (valuesOf rest) =
          binary.collected memory (valuesOf (dyn :: rest)) := by
        rw [collected_append]
        exact congrArg _ (funext fun tag => (valuesOf_append [dyn] rest tag).symm)
      rw [List.foldlM_cons, bind_eq_ok, List.forall_mem_cons, ← joined]
      constructor
      · intro ran
        obtain ⟨next, first, remaining⟩ := ran
        obtain ⟨fits, rfl⟩ := parseTag_eq_ok.mp first
        obtain ⟨others, same⟩ := ih.mp remaining
        exact ⟨⟨fits, others⟩, same⟩
      · intro fit
        obtain ⟨⟨fits, others⟩, same⟩ := fit
        exact ⟨_, parseTag_eq_ok.mpr ⟨fits, rfl⟩, ih.mpr ⟨others, same⟩⟩

theorem withStrings_congr {left right : DynamicTag → List Elf64Xword} (binary : ELFBinary)
    (same : ∀ tag, tag ≠ .other → left tag = right tag) :
    binary.withStrings left = binary.withStrings right := by
  simp (disch := decide) only [withStrings, same]

theorem collected_congr {left right : DynamicTag → List Elf64Xword} (memory : Memory) (binary : ELFBinary)
    (same : ∀ tag, tag ≠ .other → left tag = right tag) :
    binary.collected memory left = binary.collected memory right := by
  simp (disch := decide) only [collected, same]

/-- `ParseDynamic` up to the end of the second pass. -/
def parseTags (memory : Memory) (binary : ELFBinary) (entries : List Elf64Dyn) : Except Stop ELFBinary := do
  check (binary.baseAddr != 0 || binary.ehdr.eType == .exec) "base_addr_ != 0UL || ehdr_.e_type == ET_EXEC"
  check (binary.fileDynamic.pFilesz.toNat % sizeofDyn == 0) "(file_dynamic_.p_filesz % dyn_size) == (0U)"
  let binary := entries.foldl parseStrtab binary
  check (binary.strtab != 0 || binary.ehdr.eType == .exec) "strtab_ != nullptr || ehdr_.e_type == ET_EXEC"
  entries.foldlM (parseTag memory) binary

/-- `ParseDynamic` up to the point where it starts to list the symbols. -/
def parseRelocations (memory : Memory) (binary : ELFBinary) (entries : List Elf64Dyn) : Except Stop ELFBinary := do
  let binary ← binary.parseTags memory entries
  let binary ← binary.parseRelas memory
  binary.parsePltrelas memory

theorem parseEntries_eq (memory : Memory) (binary : ELFBinary) (entries : List Elf64Dyn) :
    binary.parseEntries memory entries = (do
      let binary ← binary.parseRelocations memory entries
      binary.parseSymtabs memory) := by
  simp only [parseEntries, parseRelocations, parseTags, bind_assoc]

theorem parseTags_eq_ok :
    binary.parseTags memory entries = .ok after ↔
      ((binary.baseAddr != 0 || binary.ehdr.eType == .exec) = true ∧
      (binary.fileDynamic.pFilesz.toNat % sizeofDyn == 0) = true ∧
      ((binary.withStrings (valuesOf entries)).strtab != 0 || binary.ehdr.eType == .exec) = true ∧
      (∀ dyn ∈ entries, TagFits memory (binary.withStrings (valuesOf entries)).strtab dyn)) ∧
      after = (binary.withStrings (valuesOf entries)).collected memory (valuesOf entries) := by
  rw [parseTags, foldl_parseStrtab_eq]
  simp only [bind_eq_ok, check_eq_ok, exists_const, foldlM_parseTag_eq_ok, and_assoc]
  rfl

end ELFBinary

section Orders

variable {left right : List Elf64Dyn} {tag : DynamicTag}

theorem valuesOf_perm (permuted : left.Perm right)
    (needed : left.filter (·.dTag = .needed) = right.filter (·.dTag = .needed))
    (once : ∀ tag, tag ≠ .needed → tag ≠ .other → (left.filter (·.dTag = tag)).length ≤ 1)
    (consumed : tag ≠ .other) : valuesOf left tag = valuesOf right tag := by
  apply congrArg (List.map Elf64Dyn.dVal)
  by_cases named : tag = .needed
  · rw [named]
    exact needed
  · have matching := permuted.filter (·.dTag = tag)
    have short := once tag named consumed
    cases entries : left.filter (·.dTag = tag) with
    | nil =>
        rw [entries] at matching
        exact (List.nil_perm.mp matching).symm
    | cons dyn rest =>
        cases rest with
        | nil =>
            rw [entries] at matching
            exact List.singleton_perm.mp matching
        | cons other rest => simp [entries] at short

namespace ELFBinary

variable {memory : Memory} {binary parsed : ELFBinary}

theorem parseTags_perm (permuted : left.Perm right)
    (needed : left.filter (·.dTag = .needed) = right.filter (·.dTag = .needed))
    (once : ∀ tag, tag ≠ .needed → tag ≠ .other → (left.filter (·.dTag = tag)).length ≤ 1) :
    binary.parseTags memory left = .ok parsed ↔ binary.parseTags memory right = .ok parsed := by
  have values : ∀ tag, tag ≠ .other → valuesOf left tag = valuesOf right tag :=
    fun tag => valuesOf_perm permuted needed once
  rw [parseTags_eq_ok, parseTags_eq_ok, withStrings_congr binary values, collected_congr memory _ values]
  simp only [permuted.mem_iff]

theorem parseEntries_perm (permuted : left.Perm right)
    (needed : left.filter (·.dTag = .needed) = right.filter (·.dTag = .needed))
    (once : ∀ tag, tag ≠ .needed → tag ≠ .other → (left.filter (·.dTag = tag)).length ≤ 1) :
    binary.parseEntries memory left = .ok parsed ↔ binary.parseEntries memory right = .ok parsed := by
  simp only [parseEntries_eq, parseRelocations, bind_eq_ok, parseTags_perm permuted needed once]

/-- `ParseDynamic` fails on both arrays, or the binaries it leaves are the same. -/
theorem parseEntries_order_irrelevant (memory : Memory) (binary : ELFBinary) (permuted : left.Perm right)
    (needed : left.filter (·.dTag = .needed) = right.filter (·.dTag = .needed))
    (once : ∀ tag, tag ≠ .needed → tag ≠ .other → (left.filter (·.dTag = tag)).length ≤ 1) :
    (∃ leftStop rightStop, binary.parseEntries memory left = .error leftStop ∧
      binary.parseEntries memory right = .error rightStop) ∨
    ∃ parsed, binary.parseEntries memory left = .ok parsed ∧
      binary.parseEntries memory right = .ok parsed := by
  cases leftRan : binary.parseEntries memory left with
  | ok parsed => exact .inr ⟨parsed, rfl, (parseEntries_perm permuted needed once).mp leftRan⟩
  | error leftStop =>
      cases rightRan : binary.parseEntries memory right with
      | ok parsed =>
          rw [(parseEntries_perm permuted needed once).mpr rightRan] at leftRan
          contradiction
      | error rightStop => exact .inl ⟨leftStop, rightStop, rfl, rfl⟩

end ELFBinary

end Orders

namespace Sample

/-- A binary at `0x1400000` before its dynamic array of a given size is read. -/
def placed (arraySize : Elf64Xword) : ELFBinary where
  path := ascii "/lib/a"
  file := []
  ehdr := Elf64Ehdr.read (ELFBinary.fileBytes []) 0
  filePhdrs := []
  fileDynamic := { pFilesz := arraySize }
  hasTls := false
  fileTls := {}
  baseAddr := 0x1400000

def image (start : Address) (words : List (BitVec 64)) : Memory where
  bytes address := (file words).getD (address - start).toNat 0
  ranges := [(start, 0x1000)]

/-- The names of two libraries, and a relocation. -/
def unordered : Memory :=
  image 0x1400000 [0x62006100, 0x10, 8, 0x20]

def leftArray : List Elf64Dyn :=
  [⟨.needed, 1⟩, ⟨.needed, 3⟩, ⟨.strtab, 0⟩, ⟨.rela, 8⟩, ⟨.relasz, 24⟩, ⟨.relaent, 24⟩, ⟨.other, 5⟩]

def rightArray : List Elf64Dyn :=
  [⟨.other, 5⟩, ⟨.relaent, 24⟩, ⟨.needed, 1⟩, ⟨.rela, 8⟩, ⟨.needed, 3⟩, ⟨.relasz, 24⟩, ⟨.strtab, 0⟩]

theorem leftArray_once (tag : DynamicTag) (named : tag ≠ .needed) (consumed : tag ≠ .other) :
    (leftArray.filter (·.dTag = tag)).length ≤ 1 := by
  cases tag <;> first | contradiction | decide

theorem leftArray_parsed : ((placed 112).parseEntries unordered leftArray).isOk = true := by
  decide +kernel

theorem arrays_order_irrelevant :
    ∃ parsed, (placed 112).parseEntries unordered leftArray = .ok parsed ∧
      (placed 112).parseEntries unordered rightArray = .ok parsed := by
  obtain ⟨leftStop, rightStop, failed, also⟩ | parsed :=
    @ELFBinary.parseEntries_order_irrelevant leftArray rightArray unordered (placed 112)
      (by decide) (by decide) leftArray_once
  · have ran := leftArray_parsed
    rw [failed] at ran
    contradiction
  · exact parsed

end Sample

end Sloader
