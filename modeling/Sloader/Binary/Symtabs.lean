import Sloader.Binary.Tables

namespace Sloader

open Data

/-! The symbols of a binary.  Nothing in the dynamic array says how many there
are: the walk goes on for as long as names lie inside the string table, so that
the bytes behind the table decide where it ends. -/

variable {host : Host} {memory : Memory} {bytes : Bytes} {strsz : Elf64Xword} {start : Address} {count fuel : Nat}

def symbolsAt (bytes : Bytes) (start : Address) (count : Nat) : List Elf64Sym :=
  readArray (Elf64Sym.read bytes) start sizeofSym count

/-- The symbol that `count` entries precede. -/
def symbolAfter (bytes : Bytes) (start : Address) (count : Nat) : Elf64Sym :=
  Elf64Sym.read bytes (start + BitVec.ofNat 64 (sizeofSym * count))

def Elf64Sym.Named (symbol : Elf64Sym) (strsz : Elf64Xword) : Prop :=
  symbol.stName.setWidth 64 < strsz

instance (symbol : Elf64Sym) (strsz : Elf64Xword) : Decidable (symbol.Named strsz) :=
  inferInstanceAs (Decidable (symbol.stName.setWidth 64 < strsz))

theorem symbolAfter_succ (bytes : Bytes) (start : Address) (count : Nat) :
    symbolAfter bytes (start + BitVec.ofNat 64 sizeofSym) count = symbolAfter bytes start (count + 1) := by
  rw [symbolAfter, symbolAfter, BitVec.add_assoc, ← BitVec.ofNat_add, Nat.mul_succ, Nat.add_comm sizeofSym]

theorem symbolsAt_succ (bytes : Bytes) (start : Address) (count : Nat) :
    symbolsAt bytes start (count + 1) =
      Elf64Sym.read bytes start :: symbolsAt bytes (start + BitVec.ofNat 64 sizeofSym) count := by
  rw [symbolsAt, readArray, List.range_succ_eq_map, List.map_cons, List.map_map]
  congr 1
  · simp
  · apply List.map_congr_left
    intro index _
    exact (symbolAfter_succ bytes start index).symm

theorem symbolsAt_length (bytes : Bytes) (start : Address) (count : Nat) :
    (symbolsAt bytes start count).length = count := by
  simp [symbolsAt, readArray]

theorem scanSymtab_eq_some {rest : List Elf64Sym} :
    ELFBinary.scanSymtab bytes strsz fuel start = some rest ↔
      ∃ count < fuel, rest = symbolsAt bytes start count ∧ (∀ symbol ∈ rest, symbol.Named strsz) ∧
        ¬ (symbolAfter bytes start count).Named strsz := by
  induction fuel generalizing start rest with
  | zero => simp [ELFBinary.scanSymtab]
  | succ fuel ih =>
      have head : Elf64Sym.read bytes start = symbolAfter bytes start 0 := by simp [symbolAfter]
      simp only [ELFBinary.scanSymtab]
      split
      · rename_i named
        rw [Option.map_eq_some_iff]
        constructor
        · intro walked
          obtain ⟨others, scanned, rfl⟩ := walked
          obtain ⟨count, bound, rfl, names, ends⟩ := ih.mp scanned
          refine ⟨count + 1, by omega, (symbolsAt_succ bytes start count).symm, ?_, ?_⟩
          · exact List.forall_mem_cons.mpr ⟨named, names⟩
          · rwa [← symbolAfter_succ]
        · intro table
          obtain ⟨count, bound, rfl, names, ends⟩ := table
          cases count with
          | zero => exact absurd (head ▸ named) ends
          | succ count =>
              rw [symbolsAt_succ, List.forall_mem_cons] at names
              rw [← symbolAfter_succ] at ends
              exact ⟨_, ih.mpr ⟨count, by omega, rfl, names.2, ends⟩, (symbolsAt_succ bytes start count).symm⟩
      · rename_i unnamed
        constructor
        · intro stopped
          cases stopped
          exact ⟨0, by omega, rfl, by simp, head ▸ unnamed⟩
        · intro table
          obtain ⟨count, bound, rfl, names, ends⟩ := table
          cases count with
          | zero => rfl
          | succ count =>
              rw [symbolsAt_succ, List.forall_mem_cons] at names
              exact absurd names.1 unnamed

namespace ELFBinary

variable {binary ready listed : ELFBinary} {entries : List Elf64Dyn}

end ELFBinary

namespace ELFBinary

variable {binary ready listed after : ELFBinary} {entries : List Elf64Dyn} {table : List Elf64Sym}

theorem parseRelas_updates (ran : binary.parseRelas memory = .ok after) :
    ∃ relas, after = { binary with relas } := by
  unfold parseRelas at ran
  split at ran
  · cases ran
    exact ⟨binary.relas, rfl⟩
  · simp only [bind_eq_ok, pure_eq_ok] at ran
    obtain ⟨_, _, rfl⟩ := ran
    exact ⟨_, rfl⟩

theorem parsePltrelas_updates (ran : binary.parsePltrelas memory = .ok after) :
    ∃ pltrelas, after = { binary with pltrelas } := by
  unfold parsePltrelas at ran
  split at ran
  · cases ran
    exact ⟨binary.pltrelas, rfl⟩
  · simp only [bind_eq_ok, pure_eq_ok] at ran
    obtain ⟨_, _, _, _, rfl⟩ := ran
    exact ⟨_, rfl⟩

end ELFBinary

namespace Sample

end Sample

end Sloader
