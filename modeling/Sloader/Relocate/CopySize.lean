import Sloader.Relocate.Copy

namespace Sloader

open Data

/-! How much a `COPY` entry copies.

The variable that is filled is the one of the entry's own symbol, `s`.  `Relocate`
does not look at its size: it copies as many bytes as the symbol has that it found
in another binary, and eight where `sloader_libc_map` has the name. -/

variable {host : Host} {loader next : DynLoader} {memory : Memory} {binaries : List ELFBinary} {bin library : ELFBinary}
  {r : Elf64Rela} {s symbol : Elf64Sym} {name : CString} {index entry : Nat} {target source : Address}
  {own size : Elf64Xword} {effect : Write}

/-- Processing one entry writes at this address. -/
def DynLoader.Writes (loader next : DynLoader) (address : Address) : Prop :=
  ∃ record, next.processed = loader.processed ++ [record] ∧ record.write.Covers address

/-- Processing one entry fills a variable of `own` bytes from an object of
`objectSize` bytes: it writes nowhere else, and if the object is as large as the
variable, it copies all of it. -/
structure Fills (loader next : DynLoader) (target source : Address) (own : Elf64Xword) (objectSize : Nat) : Prop where
  inside : ∀ address, loader.Writes next address → Inside target own.toNat address
  unchanged : ∀ address, ¬ Inside target own.toNat address → next.memory.bytes address = loader.memory.bytes address
  whole : objectSize = own.toNat → ∀ offset < own.toNat, loader.Writes next (target + BitVec.ofNat 64 offset) ∧
    next.memory.bytes (target + BitVec.ofNat 64 offset) = loader.memory.bytes (source + BitVec.ofNat 64 offset)

theorem resolve_copy_libc (copy : r.rType = .copy) (mapped : host.libcMap name = some source)
    (resolved : resolve host memory binaries bin r name = .ok effect) : effect = .copy (bin.target r) source 8 := by
  simp only [resolve, copy, bind_eq_ok, mapped, pure_eq_ok] at resolved
  obtain ⟨_, _, rfl⟩ := resolved
  rfl

/-- One entry that copies `size` bytes. -/
structure Copies (loader next : DynLoader) (target source : Address) (size : Elf64Xword) : Prop where
  recorded : ∃ record, next.processed = loader.processed ++ [record] ∧ record.write = .copy target source size
  memory : next.memory = loader.memory.memcpy target source size

theorem relocateEntry_copies (refers : bin.Refers loader.memory r name)
    (copies : ∀ effect, resolve host loader.memory loader.binaries bin r name = .ok effect →
      effect = .copy target source size)
    (ran : loader.relocateEntry host index bin (r, entry) = .ok next) : Copies loader next target source size := by
  obtain ⟨text, effect, record, alsoRefers, effected, written, recorded, same⟩ := relocateEntry_cases ran
  cases refers.unique alsoRefers
  cases copies effect effected
  exact ⟨⟨record, recorded, same⟩, written⟩

theorem Copies.writes_iff (copies : Copies loader next target source size) (address : Address) :
    loader.Writes next address ↔ Inside target size.toNat address := by
  obtain ⟨record, recorded, write⟩ := copies.recorded
  constructor
  · intro writes
    obtain ⟨other, same, covers⟩ := writes
    rw [recorded, List.append_right_inj, List.singleton_inj] at same
    rw [← same, write] at covers
    exact covers
  · intro inside
    refine ⟨record, recorded, ?_⟩
    rw [write]
    exact inside

/-- A copy of `size` bytes fills the variable exactly if it is not longer than the
variable, nor shorter where the object is as long as the variable. -/
theorem Copies.fills_iff (copies : Copies loader next target source size) (objectSize : Nat) :
    Fills loader next target source own objectSize ↔
      size.toNat ≤ own.toNat ∧ (objectSize = own.toNat → own.toNat ≤ size.toNat) := by
  have within := @within_iff target target own.toNat size.toNat own.isLt
  constructor
  · intro fills
    constructor
    · have lies := within.mp fun address inside => fills.inside address ((copies.writes_iff address).mpr inside)
      rw [BitVec.sub_self, BitVec.toNat_zero] at lies
      omega
    · intro same
      by_contra short
      have written := (fills.whole same size.toNat (by omega)).1
      rw [copies.writes_iff, Inside, offset_toNat size.isLt] at written
      omega
  · intro sizes
    have lies : ∀ address, Inside target size.toNat address → Inside target own.toNat address := by
      apply within.mpr
      rw [BitVec.sub_self, BitVec.toNat_zero]
      omega
    refine ⟨fun address writes => lies address ((copies.writes_iff address).mp writes), ?_, ?_⟩
    · intro address outside
      rw [copies.memory]
      simp only [Memory.memcpy]
      exact Bytes.patch_outside fun inside => outside (lies address inside)
    · intro same offset within
      have inside : offset < size.toNat := by omega
      have bound : offset < 2 ^ 64 := by omega
      refine ⟨(copies.writes_iff _).mpr (.offset inside bound), ?_⟩
      rw [copies.memory]
      simp only [Memory.memcpy]
      exact Bytes.patch_offset inside bound

/-- An entry whose variable is in libc fills it exactly if it has eight bytes or,
where libc's has another size, more; an entry whose variable is in another binary,
exactly if that one is not larger. -/
theorem relocateEntry_fills_iff (libcSize : CString → Nat) (copy : r.rType = .copy)
    (found : bin.symtabs[r.rSym]? = some s) (named : bin.symbolName loader.memory s = .ok name)
    (ran : loader.relocateEntry host index bin (r, entry) = .ok next) :
    (∀ source, host.libcMap name = some source →
      (Fills loader next (bin.target r) source s.stSize (libcSize name) ↔
        8 ≤ s.stSize.toNat ∧ (libcSize name = s.stSize.toNat → s.stSize.toNat ≤ 8))) ∧
    (∀ library symbol, host.libcMap name = none →
      definition loader.memory name (symbolTable (loader.binaries.drop 1)) = some (library, symbol) →
      (Fills loader next (bin.target r) (library.baseAddr + symbol.stValue) s.stSize symbol.stSize.toNat ↔
        symbol.stSize.toNat ≤ s.stSize.toNat)) := by
  constructor
  · intro source mapped
    have copies := relocateEntry_copies ⟨s, found, named⟩ (fun _ => resolve_copy_libc copy mapped) ran
    exact copies.fills_iff (libcSize name)
  · intro library symbol unmapped defined
    have copies := relocateEntry_copies ⟨s, found, named⟩
      (fun _ => resolve_copy copy (terminated_of_string named) unmapped defined) ran
    rw [copies.fills_iff]
    omega

namespace Sample

/-- An executable with two variables that libc has too: the pointer `optarg`, and
`optind`, an `int` with four bytes of another variable behind it. -/
def optionHost : Host :=
  -- the strings are "optarg" and "optind", at 1 and 9
  let executable : Object :=
    { data := [0, 0x700000001], strings := [0x67726174706f00, 0x646e6974706f00]
      symbols := [0, 0, 0, 0x1001100000001, 232, 8, 0x1001100000009, 240, 4]
      relas := [232, 0x100000005, 0, 240, 0x200000005, 0] }
  Sample.host [(ascii "m", executable.file)] fun name =>
    if name = ascii "optarg" then some 0x7f0000001000
    else if name = ascii "optind" then some 0x7f0000001008
    else none

@[irreducible] def optionLoader : DynLoader :=
  started optionHost (ascii "/bin/m")

theorem optionLoader_entries :
    entryAt optionHost optionLoader 0 =
        some (0x1400000, ⟨232, 0x100000005, 0⟩, ⟨1, 0x11, 1, 232, 8⟩, ascii "optarg") ∧
      entryAt optionHost optionLoader 1 =
        some (0x1400000, ⟨240, 0x200000005, 0⟩, ⟨9, 0x11, 1, 240, 4⟩, ascii "optind") := by
  decide +kernel

/-- The pointer is copied. -/
theorem relocateEntry_fills_optarg :
    ∃ bin r s next, EntryAt optionHost optionLoader 0 bin r s (ascii "optarg") next ∧ r.rType = .copy ∧ s.stSize = 8 ∧
      optionHost.libcMap (ascii "optarg") = some 0x7f0000001000 ∧
      Fills optionLoader next (bin.target r) 0x7f0000001000 s.stSize 8 := by
  obtain ⟨bin, next, entry, _⟩ := exists_entryAt optionLoader_entries.1
  refine ⟨bin, _, _, next, entry, by decide, rfl, by decide, ?_⟩
  obtain ⟨libc, _⟩ := relocateEntry_fills_iff (fun _ => 8) (by decide) entry.found entry.named entry.ran
  exact (libc 0x7f0000001000 (by decide)).mpr (by decide)

/-- With the `int`, the four bytes behind it are written too. -/
theorem relocateEntry_overruns_optind :
    ∃ bin r s next, EntryAt optionHost optionLoader 1 bin r s (ascii "optind") next ∧ r.rType = .copy ∧ s.stSize = 4 ∧
      optionHost.libcMap (ascii "optind") = some 0x7f0000001008 ∧
      ¬ Fills optionLoader next (bin.target r) 0x7f0000001008 s.stSize 4 := by
  obtain ⟨bin, next, entry, _⟩ := exists_entryAt optionLoader_entries.2
  have mapped : optionHost.libcMap (ascii "optind") = some 0x7f0000001008 := by decide
  refine ⟨bin, _, _, next, entry, by decide, rfl, mapped, fun fills => ?_⟩
  have copies := relocateEntry_copies ⟨_, entry.found, entry.named⟩ (fun _ => resolve_copy_libc (by decide) mapped)
    entry.ran
  have sizes := (copies.fills_iff 4).mp fills
  exact absurd sizes.1 (by decide)

end Sample

end Sloader
