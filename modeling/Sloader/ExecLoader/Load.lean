import Sloader.Binary.Checks
import Sloader.Binary.Grants
import Sloader.ExecLoader

namespace Sloader

open Data

/-! `ExecLoader` against `ELFBinary`: for which executables it can take the place of
the loader with libraries, and that it then leaves the same memory. -/

namespace ExecLoader

open ELFBinary (mmapStart mmapEnd mmapSize pageRest fileBytes copySegment)

variable {host : Host} {loader next loaded : ExecLoader} {memory after : Memory} {binary : ELFBinary}
  {mapping : ELFBinary.Mapping} {ph : Elf64Phdr} {phdrs : List Elf64Phdr} {path : Path}

def dynamics (phdrs : List Elf64Phdr) : List Elf64Phdr :=
  phdrs.filter fun ph => ph.pType = .dynamic

/-- The dynamic headers met so far, when those in `phdrs` have been looked at too. -/
def met (loader : ExecLoader) (phdrs : List Elf64Phdr) : List Elf64Phdr :=
  loader.phDynamic.toList ++ dynamics phdrs

def withDynamic (loader : ExecLoader) (headers : List Elf64Phdr) : ExecLoader :=
  { loader with phDynamic := headers.head? }

theorem met_withDynamic {headers : List Elf64Phdr} (short : headers.length ≤ 1) :
    (loader.withDynamic headers).met phdrs = headers ++ dynamics phdrs := by
  cases headers with
  | nil => rfl
  | cons head rest =>
      have none : rest = [] := List.eq_nil_of_length_eq_zero (by simpa using short)
      rw [none]
      rfl

theorem findDynamic_iff : loader.findDynamic ph = .ok next ↔
    (loader.met [ph]).length ≤ 1 ∧ loader.withDynamic (loader.met [ph]) = next := by
  obtain ⟨filename, file, ehdr, phdrs, phDynamic, memories⟩ := loader
  by_cases isDynamic : ph.pType = .dynamic
  · cases phDynamic <;> simp [findDynamic, met, dynamics, withDynamic, isDynamic, check, bind, Except.bind]
  · cases phDynamic <;> simp [findDynamic, met, dynamics, withDynamic, isDynamic]

/-- The one `PT_DYNAMIC` header is remembered, and there may not be a second. -/
theorem foldlM_findDynamic : phdrs.foldlM findDynamic loader = .ok next ↔
    (loader.met phdrs).length ≤ 1 ∧ loader.withDynamic (loader.met phdrs) = next := by
  induction phdrs generalizing loader with
  | nil =>
      obtain ⟨filename, file, ehdr, phdrs, phDynamic, memories⟩ := loader
      cases phDynamic <;> simp [met, dynamics, withDynamic]
  | cons ph rest ih =>
      have split : loader.met (ph :: rest) = loader.met [ph] ++ dynamics rest := by
        rw [met, met, dynamics, dynamics, dynamics, List.append_assoc, ← List.filter_append, List.singleton_append]
      rw [List.foldlM_cons, bind_eq_ok, split]
      constructor
      · rintro ⟨middle, first, remaining⟩
        obtain ⟨short, rfl⟩ := findDynamic_iff.mp first
        rw [ih, met_withDynamic short] at remaining
        exact remaining
      · rintro ⟨all, last⟩
        have short : (loader.met [ph]).length ≤ 1 := by
          rw [List.length_append] at all
          omega
        refine ⟨_, findDynamic_iff.mpr ⟨short, rfl⟩, ih.mpr ?_⟩
        rw [met_withDynamic short]
        exact ⟨all, last⟩

/-- Both classes read the same headers.  `ELFBinary` takes the last of several
`PT_DYNAMIC` headers, `ExecLoader` does not take several. -/
theorem makeExecLoader_iff (opened : ELFBinary.construct host path = .ok binary) (argv0 : CString) :
    makeExecLoader host path argv0 = .ok next ↔
      (dynamics binary.filePhdrs).length ≤ 1 ∧
        { filename := argv0, file := binary.file, ehdr := binary.ehdr, phdrs := binary.filePhdrs
          phDynamic := (dynamics binary.filePhdrs).head? } = next := by
  unfold ELFBinary.construct at opened
  unfold makeExecLoader
  cases contents : host.openFile path with
  | none =>
      rw [contents] at opened
      contradiction
  | some file =>
      rw [contents] at opened
      simp only [bind_eq_ok, check_eq_ok, pure_eq_ok] at opened
      obtain ⟨_, long, _, mapped, rfl⟩ := opened
      generalize headers : readArray (Elf64Phdr.read (fileBytes file)) (Elf64Ehdr.read (fileBytes file) 0).ePhoff
        (Elf64Ehdr.read (fileBytes file) 0).ePhentsize.toNat (Elf64Ehdr.read (fileBytes file) 0).ePhnum.toNat = phdrs
      generalize start : (
        { path, file, ehdr := Elf64Ehdr.read (fileBytes file) 0, filePhdrs := [], fileDynamic := {}, hasTls := false,
          fileTls := host.indeterminateTls } : ELFBinary) = empty
      obtain ⟨_, sameFile, _⟩ := ELFBinary.foldl_readHeader phdrs empty
      obtain ⟨sameHeaders, sameEhdr⟩ := ELFBinary.foldl_readHeader_filePhdrs phdrs empty
      rw [sameFile, sameHeaders, sameEhdr, ← start]
      simp only [bind_eq_ok, check_eq_ok, long, mapped, true_and, exists_const, construct, headers, foldlM_findDynamic]
      rfl

/-- The region that is remembered for `Unload`. -/
def region (ph : Elf64Phdr) : Address × BitVec 32 :=
  (mmapStart 0 ph, ph.pMemsz.setWidth 32)

def regions (phdrs : List Elf64Phdr) : List (Address × BitVec 32) :=
  (phdrs.filter fun ph => ph.pType = .load).map region

/-- The check of `ExecLoader` is the one of `ELFBinary`, for segments that leave
something of their last page. -/
theorem finish_iff : ph.pVaddr + ph.pMemsz < mmapEnd 0 ph ↔
    ph.pVaddr + 0 + ph.pMemsz ≤ mmapEnd 0 ph ∧ pageRest 0 ph ≠ 0 := by
  have rounded (checked : ph.pVaddr + 0 + ph.pMemsz ≤ mmapEnd 0 ph) := ELFBinary.mmapEnd_eq checked
  rw [add_zero] at rounded ⊢
  rw [add_zero] at rounded
  generalize mmapEnd 0 ph = finish at *
  generalize pageRest 0 ph = rest at *
  generalize ph.pVaddr + ph.pMemsz = last at *
  constructor
  · intro before
    have checked : last ≤ finish := BitVec.le_of_lt before
    have sum := rounded checked
    refine ⟨checked, ?_⟩
    bv_omega
  · rintro ⟨checked, nonempty⟩
    have sum := rounded checked
    bv_omega

theorem loadSegment_iff (file : binary.file = loader.file) (base : binary.baseAddr = 0) :
    loadSegment host (loader, mapping.memory) ph = .ok (next, after) ↔
      (∃ mapped, binary.loadSegment host mapping ph = .ok mapped ∧ mapped.memory = after) ∧
        (ph.pType = .load → pageRest 0 ph ≠ 0) ∧
        { loader with memories := loader.memories ++ regions [ph] } = next := by
  unfold loadSegment ELFBinary.loadSegment
  by_cases wanted : ph.pType = .load
  · have plain : ph.pVaddr + 0 = ph.pVaddr := add_zero _
    simp only [wanted, ne_eq, not_true_eq_false, if_false, bind_eq_ok, check_eq_ok, pure_eq_ok, base, file, forall_const,
      Prod.mk.injEq, regions, List.filter_cons, decide_true, if_true, List.filter_nil, List.map_cons, List.map_nil,
      decide_eq_true_eq, finish_iff, exists_const, region, plain]
    constructor
    · rintro ⟨granted, start, ⟨finish, nonempty⟩, rfl, rfl⟩
      exact ⟨⟨_, ⟨granted, start, finish, rfl⟩, rfl⟩, nonempty, rfl⟩
    · rintro ⟨⟨_, ⟨granted, start, finish, rfl⟩, rfl⟩, nonempty, rfl⟩
      exact ⟨granted, start, ⟨finish, nonempty⟩, rfl, rfl⟩
  · have none : regions [ph] = [] := by simp [regions, wanted]
    simp only [wanted, ne_eq, not_false_eq_true, if_true, Except.ok.injEq, Prod.mk.injEq, exists_eq_left', none,
      List.append_nil, false_implies, true_and]
    exact and_comm

theorem regions_append (phdrs rest : List Elf64Phdr) : regions (phdrs ++ rest) = regions phdrs ++ regions rest := by
  rw [regions, regions, regions, List.filter_append, List.map_append]

/-- The loop over the headers, for two classes with the same file: step by step the
same memory, as long as no segment fills its last page. -/
theorem foldlM_loadSegment_iff (file : binary.file = loader.file) (base : binary.baseAddr = 0) :
    phdrs.foldlM (loadSegment host) (loader, mapping.memory) = .ok (next, after) ↔
      (∃ mapped, phdrs.foldlM (binary.loadSegment host) mapping = .ok mapped ∧ mapped.memory = after) ∧
        (∀ ph ∈ phdrs, ph.pType = .load → pageRest 0 ph ≠ 0) ∧
        { loader with memories := loader.memories ++ regions phdrs } = next := by
  induction phdrs generalizing loader mapping with
  | nil =>
      have none : regions [] = [] := rfl
      simp only [List.foldlM_nil, pure_eq_ok, Prod.mk.injEq, exists_eq_left', none, List.append_nil, List.not_mem_nil,
        false_implies, implies_true, true_and]
      exact and_comm
  | cons ph rest ih =>
      have split : regions (ph :: rest) = regions [ph] ++ regions rest := regions_append [ph] rest
      simp only [List.foldlM_cons, bind_eq_ok, List.forall_mem_cons, split, ← List.append_assoc]
      constructor
      · rintro ⟨⟨middle, between⟩, first, remaining⟩
        obtain ⟨⟨mapped, ran, rfl⟩, open_, rfl⟩ := (loadSegment_iff file base).mp first
        obtain ⟨⟨last, loops, same⟩, others, rfl⟩ := (@ih { loader with memories := loader.memories ++ regions [ph] } mapped file).mp
          remaining
        exact ⟨⟨last, ⟨mapped, ran, loops⟩, same⟩, ⟨open_, others⟩, rfl⟩
      · rintro ⟨⟨last, ⟨mapped, ran, loops⟩, same⟩, ⟨open_, others⟩, rfl⟩
        refine ⟨_, (loadSegment_iff file base).mpr ⟨⟨mapped, ran, rfl⟩, open_, rfl⟩, ?_⟩
        exact (@ih { loader with memories := loader.memories ++ regions [ph] } mapped file).mpr ⟨⟨last, loops, same⟩, others, rfl⟩

/-- For an executable that is not to be moved, `ExecLoader` succeeds exactly if
`ELFBinary` maps its segments, no segment ends where a page does and there is at
most one `PT_DYNAMIC` header, and then memory is the same. -/
theorem load_iff (opened : ELFBinary.construct host path = .ok binary) (fixed : binary.ehdr.eType ≠ .dyn)
    (argv0 : CString) (memory after : Memory) (baseAddrArg : Elf64Addr) :
    (∃ loader loaded, makeExecLoader host path argv0 = .ok loader ∧ loader.load host memory = .ok (loaded, after)) ↔
      (dynamics binary.filePhdrs).length ≤ 1 ∧
      (∀ ph ∈ binary.filePhdrs, ph.pType = .load → pageRest 0 ph ≠ 0) ∧
      ∃ mapping, (binary.placed baseAddrArg).filePhdrs.foldlM ((binary.placed baseAddrArg).loadSegment host)
          { memory, endAddr := (binary.placed baseAddrArg).baseAddr, mapFile := [] } = .ok mapping ∧
        mapping.memory = after := by
  have base : (binary.placed baseAddrArg).baseAddr = 0 := if_neg fixed
  have loop (argv0 : CString) (phDynamic : Option Elf64Phdr) (loaded : ExecLoader) :=
    @foldlM_loadSegment_iff host ⟨argv0, binary.file, binary.ehdr, binary.filePhdrs, phDynamic, []⟩ loaded after
      (binary.placed baseAddrArg) ⟨memory, (binary.placed baseAddrArg).baseAddr, []⟩ binary.filePhdrs rfl base
  constructor
  · rintro ⟨loader, loaded, made, ran⟩
    obtain ⟨single, rfl⟩ := (makeExecLoader_iff opened argv0).mp made
    obtain ⟨mapped, open_, _⟩ := (loop _ _ _).mp ran
    exact ⟨single, open_, mapped⟩
  · rintro ⟨single, open_, mapped⟩
    exact ⟨_, _, (makeExecLoader_iff opened argv0).mpr ⟨single, rfl⟩, (loop _ _ _).mpr ⟨mapped, open_, rfl⟩⟩

def execHost : Host :=
  Sample.host [(ascii "m", ({ eType := 2, vaddr := 0x400000 } : Sample.Object).file)] fun _ => none

theorem load_iff_execHost :
    ∃ binary loader loaded after mapping, ELFBinary.construct execHost (ascii "/bin/m") = .ok binary ∧
      makeExecLoader execHost (ascii "/bin/m") (ascii "m") = .ok loader ∧
      loader.load execHost Sample.memory = .ok (loaded, after) ∧
      (binary.placed 0x1400000).filePhdrs.foldlM ((binary.placed 0x1400000).loadSegment execHost)
        ⟨Sample.memory, (binary.placed 0x1400000).baseAddr, []⟩ = .ok mapping ∧ mapping.memory = after := by
  have opens : (ELFBinary.construct execHost (ascii "/bin/m")).toOption.map (fun binary =>
      decide (binary.ehdr.eType = .exec)) = some true := by decide +kernel
  have loads : (do
      let loader ← makeExecLoader execHost (ascii "/bin/m") (ascii "m")
      loader.load execHost Sample.memory).isOk = true := by decide +kernel
  obtain ⟨binary, constructed, isExec⟩ := Option.map_eq_some_iff.mp opens
  obtain ⟨⟨loaded, after⟩, ran⟩ := exists_of_isOk loads
  obtain ⟨loader, made, ran⟩ := bind_eq_ok.mp ran
  have opened := eq_ok_of_toOption constructed
  have fixed : binary.ehdr.eType ≠ .dyn := by
    rw [of_decide_eq_true isExec]
    decide
  obtain ⟨_, _, mapping, segments, same⟩ :=
    (load_iff opened fixed (ascii "m") Sample.memory after 0x1400000).mp ⟨loader, loaded, made, ran⟩
  exact ⟨binary, loader, loaded, after, mapping, opened, made, ran, segments, same⟩

end ExecLoader

end Sloader
