import Sloader.Loader

namespace Sloader

open Data

/-! What opening, loading and parsing a binary keep and establish.  Parsing only
fills in the fields that come from the dynamic array; the identity of the image
is fixed once its segments are mapped. -/

namespace ELFBinary

/-- The fields that parsing the dynamic array does not touch. -/
structure SameImage (before after : ELFBinary) : Prop where
  path : after.path = before.path
  file : after.file = before.file
  ehdr : after.ehdr = before.ehdr
  filePhdrs : after.filePhdrs = before.filePhdrs
  fileDynamic : after.fileDynamic = before.fileDynamic
  hasTls : after.hasTls = before.hasTls
  fileTls : after.fileTls = before.fileTls
  baseAddr : after.baseAddr = before.baseAddr
  endAddr : after.endAddr = before.endAddr

theorem SameImage.refl (binary : ELFBinary) : SameImage binary binary :=
  ⟨rfl, rfl, rfl, rfl, rfl, rfl, rfl, rfl, rfl⟩

theorem SameImage.trans {first second third : ELFBinary}
    (left : SameImage first second) (right : SameImage second third) : SameImage first third :=
  ⟨right.path.trans left.path, right.file.trans left.file, right.ehdr.trans left.ehdr,
    right.filePhdrs.trans left.filePhdrs, right.fileDynamic.trans left.fileDynamic,
    right.hasTls.trans left.hasTls, right.fileTls.trans left.fileTls,
    right.baseAddr.trans left.baseAddr, right.endAddr.trans left.endAddr⟩

/-- Names are read from memory, so that they are no longer than memory. -/
def NeededsBounded (binary : ELFBinary) : Prop :=
  ∀ name ∈ binary.neededs, name.length ≤ 2 ^ 64

variable {host : Host} {memory : Memory} {binary after : ELFBinary} {dyn : Elf64Dyn}

theorem string_length {text : CString} {start : Address} (read : memory.string start = .ok text) :
    text.length ≤ 2 ^ 64 := by
  unfold Memory.string at read
  split at read
  · rename_i found
    cases read
    exact Bytes.cstring_length found
  · contradiction

theorem parseStrtab_sameImage (binary : ELFBinary) (dyn : Elf64Dyn) :
    SameImage binary (binary.parseStrtab dyn) := by
  unfold parseStrtab
  split <;> exact ⟨rfl, rfl, rfl, rfl, rfl, rfl, rfl, rfl, rfl⟩

theorem parseStrtab_neededs (binary : ELFBinary) (dyn : Elf64Dyn) :
    (binary.parseStrtab dyn).neededs = binary.neededs := by
  unfold parseStrtab
  split <;> rfl

theorem foldl_parseStrtab (entries : List Elf64Dyn) (binary : ELFBinary) :
    SameImage binary (entries.foldl parseStrtab binary) ∧
      (entries.foldl parseStrtab binary).neededs = binary.neededs := by
  induction entries generalizing binary with
  | nil => exact ⟨.refl binary, rfl⟩
  | cons dyn rest ih =>
      obtain ⟨image, neededs⟩ := ih (binary.parseStrtab dyn)
      exact ⟨(parseStrtab_sameImage binary dyn).trans image, neededs.trans (parseStrtab_neededs binary dyn)⟩

theorem parseTag_sameImage (parsed : parseTag memory binary dyn = .ok after) :
    SameImage binary after := by
  cases tag : dyn.dTag <;> simp only [parseTag, tag, bind_eq_ok, pure_eq_ok, Except.ok.injEq] at parsed
  all_goals try (subst after; exact ⟨rfl, rfl, rfl, rfl, rfl, rfl, rfl, rfl, rfl⟩)
  all_goals
    obtain ⟨_, _, rfl⟩ := parsed
    exact ⟨rfl, rfl, rfl, rfl, rfl, rfl, rfl, rfl, rfl⟩

theorem parseTag_neededs (bounded : binary.NeededsBounded)
    (parsed : parseTag memory binary dyn = .ok after) : after.NeededsBounded := by
  cases tag : dyn.dTag <;> simp only [parseTag, tag, bind_eq_ok, pure_eq_ok, Except.ok.injEq] at parsed
  case needed =>
    obtain ⟨needed, read, rfl⟩ := parsed
    intro name member
    rcases List.mem_append.mp member with old | new
    · exact bounded name old
    · rw [List.mem_singleton.mp new]
      exact string_length read
  all_goals try (subst after; exact bounded)
  all_goals
    obtain ⟨_, _, rfl⟩ := parsed
    exact bounded

theorem parseRelas_keeps (parsed : binary.parseRelas memory = .ok after) :
    SameImage binary after ∧ after.neededs = binary.neededs := by
  unfold parseRelas at parsed
  split at parsed
  · cases parsed
    exact ⟨.refl _, rfl⟩
  · simp only [bind_eq_ok, pure_eq_ok] at parsed
    obtain ⟨_, _, rfl⟩ := parsed
    exact ⟨⟨rfl, rfl, rfl, rfl, rfl, rfl, rfl, rfl, rfl⟩, rfl⟩

theorem parsePltrelas_keeps (parsed : binary.parsePltrelas memory = .ok after) :
    SameImage binary after ∧ after.neededs = binary.neededs := by
  unfold parsePltrelas at parsed
  split at parsed
  · cases parsed
    exact ⟨.refl _, rfl⟩
  · simp only [bind_eq_ok, pure_eq_ok] at parsed
    obtain ⟨_, _, _, _, rfl⟩ := parsed
    exact ⟨⟨rfl, rfl, rfl, rfl, rfl, rfl, rfl, rfl, rfl⟩, rfl⟩

theorem parseSymtabs_keeps (parsed : binary.parseSymtabs memory = .ok after) :
    SameImage binary after ∧ after.neededs = binary.neededs := by
  unfold parseSymtabs at parsed
  split at parsed
  · cases parsed
    exact ⟨.refl _, rfl⟩
  · dsimp only at parsed
    split at parsed
    · contradiction
    · simp only [bind_eq_ok, pure_eq_ok] at parsed
      obtain ⟨_, _, rfl⟩ := parsed
      exact ⟨⟨rfl, rfl, rfl, rfl, rfl, rfl, rfl, rfl, rfl⟩, rfl⟩

theorem parseDynamic_steps (parsed : binary.parseDynamic memory = .ok after) :
    (binary.baseAddr ≠ 0 ∨ binary.ehdr.eType = .exec) ∧ ∃ tags relas pltrelas,
      (binary.dynamicEntries memory.bytes).foldlM (parseTag memory)
        ((binary.dynamicEntries memory.bytes).foldl parseStrtab binary) = .ok tags ∧
      tags.parseRelas memory = .ok relas ∧ relas.parsePltrelas memory = .ok pltrelas ∧
      pltrelas.parseSymtabs memory = .ok after := by
  simp only [parseDynamic, bind_eq_ok, check_eq_ok] at parsed
  obtain ⟨_, based, _, _, _, _, tags, first, relas, second, pltrelas, third, fourth⟩ := parsed
  exact ⟨by simpa using based, tags, relas, pltrelas, first, second, third, fourth⟩

theorem parseDynamic_sameImage (parsed : binary.parseDynamic memory = .ok after) :
    SameImage binary after := by
  obtain ⟨_, tags, relas, pltrelas, first, second, third, fourth⟩ := parseDynamic_steps parsed
  have tagsKept : SameImage binary tags := by
    refine foldlM_invariant (SameImage binary) ?_ (foldl_parseStrtab _ binary).1 first
    intro state dyn next _ kept stepped
    exact kept.trans (parseTag_sameImage stepped)
  exact ((tagsKept.trans (parseRelas_keeps second).1).trans (parsePltrelas_keeps third).1).trans
    (parseSymtabs_keeps fourth).1

theorem parseDynamic_neededs (bounded : binary.NeededsBounded)
    (parsed : binary.parseDynamic memory = .ok after) : after.NeededsBounded := by
  obtain ⟨_, tags, relas, pltrelas, first, second, third, fourth⟩ := parseDynamic_steps parsed
  have tagsBounded : tags.NeededsBounded := by
    refine foldlM_invariant NeededsBounded ?_ ?_ first
    · intro state dyn next _ kept stepped
      exact parseTag_neededs kept stepped
    · intro name member
      exact bounded name ((foldl_parseStrtab _ binary).2 ▸ member)
  intro name member
  rw [(parseSymtabs_keeps fourth).2, (parsePltrelas_keeps third).2, (parseRelas_keeps second).2] at member
  exact tagsBounded name member

theorem foldl_readHeader (headers : List Elf64Phdr) (binary : ELFBinary) :
    (headers.foldl readHeader binary).path = binary.path ∧
      (headers.foldl readHeader binary).file = binary.file ∧
      (headers.foldl readHeader binary).neededs = binary.neededs := by
  induction headers generalizing binary with
  | nil => exact ⟨rfl, rfl, rfl⟩
  | cons ph rest ih =>
      have kept : (binary.readHeader ph).path = binary.path ∧ (binary.readHeader ph).file = binary.file ∧
          (binary.readHeader ph).neededs = binary.neededs := by
        unfold readHeader
        split <;> exact ⟨rfl, rfl, rfl⟩
      obtain ⟨path, file, neededs⟩ := ih (binary.readHeader ph)
      exact ⟨path.trans kept.1, file.trans kept.2.1, neededs.trans kept.2.2⟩

theorem foldl_readHeader_filePhdrs (headers : List Elf64Phdr) (binary : ELFBinary) :
    (headers.foldl readHeader binary).filePhdrs = binary.filePhdrs ++ headers ∧
      (headers.foldl readHeader binary).ehdr = binary.ehdr := by
  induction headers generalizing binary with
  | nil => exact ⟨(List.append_nil _).symm, rfl⟩
  | cons ph rest ih =>
      have step : (binary.readHeader ph).filePhdrs = binary.filePhdrs ++ [ph] ∧
          (binary.readHeader ph).ehdr = binary.ehdr := by
        unfold readHeader
        split <;> exact ⟨rfl, rfl⟩
      obtain ⟨phdrs, ehdr⟩ := ih (binary.readHeader ph)
      rw [List.foldl_cons, phdrs, ehdr, step.1, step.2, List.append_assoc, List.singleton_append]
      exact ⟨rfl, rfl⟩

theorem construct_spec {path : Path} (opened : construct host path = .ok binary) :
    binary.path = path ∧ host.openFile path = some binary.file ∧ binary.neededs = [] := by
  unfold construct at opened
  split at opened
  · contradiction
  · rename_i file found
    simp only [bind_eq_ok, check_eq_ok, pure_eq_ok] at opened
    obtain ⟨_, _, _, _, rfl⟩ := opened
    obtain ⟨samePath, sameFile, sameNeededs⟩ := foldl_readHeader
      (readArray (Elf64Phdr.read (fileBytes file)) (Elf64Ehdr.read (fileBytes file) 0).ePhoff
        (Elf64Ehdr.read (fileBytes file) 0).ePhentsize.toNat (Elf64Ehdr.read (fileBytes file) 0).ePhnum.toNat)
      { path, file, ehdr := Elf64Ehdr.read (fileBytes file) 0, filePhdrs := [], fileDynamic := {},
        hasTls := false, fileTls := host.indeterminateTls }
    exact ⟨samePath, found.trans (congrArg some sameFile.symm), sameNeededs⟩

/-- The binary as `Load` maps it: only its base address has been chosen. -/
def placed (binary : ELFBinary) (baseAddrArg : Elf64Addr) : ELFBinary :=
  { binary with baseAddr := if binary.ehdr.eType = .dyn then baseAddrArg else 0 }

theorem load_steps {opened : ELFBinary} {baseAddrArg : Elf64Addr} {mapping : Mapping}
    (loaded : opened.load host memory baseAddrArg = .ok (binary, mapping)) :
    (opened.placed baseAddrArg).filePhdrs.foldlM ((opened.placed baseAddrArg).loadSegment host)
        { memory, endAddr := (opened.placed baseAddrArg).baseAddr, mapFile := [] } = .ok mapping ∧
      ({ opened.placed baseAddrArg with endAddr := mapping.endAddr } : ELFBinary).parseDynamic
        mapping.memory = .ok binary := by
  simp only [load, bind_eq_ok, pure_eq_ok, Prod.mk.injEq] at loaded
  obtain ⟨mapped, segments, parsed, ran, rfl, rfl⟩ := loaded
  exact ⟨segments, ran⟩

theorem load_sameImage {opened : ELFBinary} {baseAddrArg : Elf64Addr} {mapping : Mapping}
    (loaded : opened.load host memory baseAddrArg = .ok (binary, mapping)) :
    SameImage { opened.placed baseAddrArg with endAddr := mapping.endAddr } binary :=
  parseDynamic_sameImage (load_steps loaded).2

/-- What mapping a segment depends on is the same once the binary is parsed. -/
theorem SameImage.loadSegment {before after : ELFBinary} (same : SameImage before after) :
    before.loadSegment host = after.loadSegment host := by
  funext mapping ph
  simp only [ELFBinary.loadSegment, same.path, same.file, same.baseAddr]

end ELFBinary

namespace DynLoader

variable {host : Host} {loader next : DynLoader} {path : Path} {binary : ELFBinary}

theorem emplace_spec (ran : loader.emplace host path = .ok (binary, next)) :
    ∃ opened mapping, ELFBinary.construct host path = .ok opened ∧
      opened.load host loader.memory loader.nextBaseAddr = .ok (binary, mapping) ∧
      next = { loader with
        memory := mapping.memory
        binaries := loader.binaries ++ [binary]
        nextBaseAddr := ELFBinary.nextBaseAddr binary.endAddr
        mapFile := loader.mapFile ++ mapping.mapFile } := by
  simp only [emplace, bind_eq_ok, pure_eq_ok, Prod.mk.injEq] at ran
  obtain ⟨opened, constructed, ⟨loaded, mapping⟩, ran, rfl, rfl⟩ := ran
  exact ⟨opened, mapping, constructed, ran, rfl⟩

/-- The binary that was added has mapped its own segments. -/
theorem emplace_mapping (ran : loader.emplace host path = .ok (binary, next)) :
    ∃ mapping, binary.filePhdrs.foldlM (binary.loadSegment host)
        { memory := loader.memory, endAddr := binary.baseAddr, mapFile := [] } = .ok mapping ∧
      mapping.endAddr = binary.endAddr ∧
      next = { loader with
        memory := mapping.memory
        binaries := loader.binaries ++ [binary]
        nextBaseAddr := ELFBinary.nextBaseAddr binary.endAddr
        mapFile := loader.mapFile ++ mapping.mapFile } := by
  obtain ⟨opened, mapping, _, loaded, same⟩ := emplace_spec ran
  have image := ELFBinary.load_sameImage loaded
  have segments := (ELFBinary.load_steps loaded).1
  have headers : (opened.placed loader.nextBaseAddr).filePhdrs = binary.filePhdrs := image.filePhdrs.symm
  have base : (opened.placed loader.nextBaseAddr).baseAddr = binary.baseAddr := image.baseAddr.symm
  have step : (opened.placed loader.nextBaseAddr).loadSegment host = binary.loadSegment host := image.loadSegment
  rw [headers, base, step] at segments
  exact ⟨mapping, segments, image.endAddr.symm, same⟩

theorem emplace_file (ran : loader.emplace host path = .ok (binary, next)) :
    host.openFile path = some binary.file := by
  obtain ⟨opened, mapping, constructed, loaded, _⟩ := emplace_spec ran
  have file : opened.file = binary.file := (ELFBinary.load_sameImage loaded).file.symm
  rw [← file]
  exact (ELFBinary.construct_spec constructed).2.1

/-- A shared object goes where the loader has got to. -/
theorem emplace_base (ran : loader.emplace host path = .ok (binary, next)) (dyn : binary.ehdr.eType = .dyn) :
    binary.baseAddr = loader.nextBaseAddr := by
  obtain ⟨opened, mapping, _, loaded, _⟩ := emplace_spec ran
  have image := ELFBinary.load_sameImage loaded
  have type : opened.ehdr.eType = .dyn := by
    rw [← dyn]
    exact congrArg Elf64Ehdr.eType image.ehdr.symm
  exact image.baseAddr.trans (if_pos type)

theorem emplace_binaries (ran : loader.emplace host path = .ok (binary, next)) :
    next.binaries = loader.binaries ++ [binary] := by
  obtain ⟨_, _, _, _, rfl⟩ := emplace_spec ran
  rfl

theorem mem_emplace (ran : loader.emplace host path = .ok (binary, next)) {other : ELFBinary} :
    other ∈ next.binaries ↔ other ∈ loader.binaries ∨ other = binary := by
  rw [emplace_binaries ran, List.mem_append, List.mem_singleton]

theorem pairwise_emplace (ran : loader.emplace host path = .ok (binary, next)) {Related : ELFBinary → ELFBinary → Prop} :
    next.binaries.Pairwise Related ↔
      loader.binaries.Pairwise Related ∧ ∀ earlier ∈ loader.binaries, Related earlier binary := by
  simp only [emplace_binaries ran, List.pairwise_append, List.pairwise_singleton, List.mem_singleton, forall_eq,
    true_and]

theorem emplace_loaded (ran : loader.emplace host path = .ok (binary, next)) :
    next.loaded = loader.loaded := by
  obtain ⟨_, _, _, _, rfl⟩ := emplace_spec ran
  rfl

theorem emplace_path (ran : loader.emplace host path = .ok (binary, next)) : binary.path = path := by
  obtain ⟨opened, mapping, constructed, loaded, _⟩ := emplace_spec ran
  exact (ELFBinary.load_sameImage loaded).path.trans (ELFBinary.construct_spec constructed).1

theorem emplace_neededs (ran : loader.emplace host path = .ok (binary, next)) :
    binary.NeededsBounded := by
  obtain ⟨opened, mapping, constructed, loaded, _⟩ := emplace_spec ran
  refine ELFBinary.parseDynamic_neededs ?_ (ELFBinary.load_steps loaded).2
  intro name member
  have none : opened.neededs = [] := (ELFBinary.construct_spec constructed).2.2
  change name ∈ opened.neededs at member
  simp [none] at member

end DynLoader

end Sloader
