import Sloader.Binary.Dynamic
import Sloader.Tls

namespace Sloader

open Data

/-! The tables that the dynamic array points to.  The relocation tables have a
size and an entry size, but the walk takes its stride from a C type; the symbol
table has neither, and the walk ends where a name lies outside the strings. -/

namespace ELFBinary

variable {host : Host} {memory : Memory} {binary ready : ELFBinary} {entries : List Elf64Dyn}

/-- The fields that the dynamic array fills, as the constructor leaves them. -/
structure Unparsed (binary : ELFBinary) : Prop where
  rela : binary.rela = 0
  relas : binary.relas = []
  relasz : binary.relasz = 0
  relaent : binary.relaent = 0
  jmprel : binary.jmprel = 0
  pltrelas : binary.pltrelas = []
  pltrelsz : binary.pltrelsz = 0
  pltrel : binary.pltrel = 0
  pltrelent : binary.pltrelent = 0
  symtab : binary.symtab = 0
  symtabs : binary.symtabs = []
  strsz : binary.strsz = 0

theorem readHeader_unparsed {ph : Elf64Phdr} (unparsed : binary.Unparsed) : (binary.readHeader ph).Unparsed := by
  obtain ⟨rela, relas, relasz, relaent, jmprel, pltrelas, pltrelsz, pltrel, pltrelent, symtab, symtabs, strsz⟩ :=
    unparsed
  unfold readHeader
  split <;> exact ⟨rela, relas, relasz, relaent, jmprel, pltrelas, pltrelsz, pltrel, pltrelent, symtab, symtabs, strsz⟩

theorem construct_unparsed {path : Path} (opened : construct host path = .ok binary) : binary.Unparsed := by
  unfold construct at opened
  split at opened
  · contradiction
  · simp only [bind_eq_ok, pure_eq_ok] at opened
    obtain ⟨_, _, _, _, rfl⟩ := opened
    generalize readArray _ _ _ _ = phdrs
    apply List.foldlRecOn
    · exact ⟨rfl, rfl, rfl, rfl, rfl, rfl, rfl, rfl, rfl, rfl, rfl, rfl⟩
    · intro binary unparsed ph _
      exact readHeader_unparsed unparsed

/-- A memory that tells the second entry of a table from everything else. -/
def marked (pointer : Address) : Memory where
  bytes address := if address = pointer + BitVec.ofNat 64 sizeofRela then 1 else 0
  ranges := []

end ELFBinary

namespace Sample

end Sample

end Sloader
