import Sloader.Data.Bytes

namespace Sloader.Data.Bytes

/-! Rows of 64-bit words in memory: growing one downwards, and reading it back up
to a zero word. -/

def WordsAt (bytes : Bytes) : Address → List (BitVec 64) → Prop
  | _, [] => True
  | start, word :: rest => bytes.load64 start = word ∧ WordsAt bytes (start + 8) rest

variable {bytes other : Bytes} {start : Address} {word : BitVec 64} {words rest : List (BitVec 64)}

theorem inside_next {size : Nat} {address : Address} (bound : size + 8 ≤ 2 ^ 64)
    (inside : Inside (start + 8) size address) : Inside start (size + 8) address := by
  simp only [Inside] at inside ⊢
  bv_omega

theorem WordsAt.congr (bound : 8 * words.length ≤ 2 ^ 64)
    (same : ∀ address, Inside start (8 * words.length) address → other address = bytes address)
    (held : bytes.WordsAt start words) : other.WordsAt start words := by
  induction words generalizing start with
  | nil => trivial
  | cons word rest ih =>
      simp only [List.length_cons, Nat.mul_succ] at bound same
      obtain ⟨head, tail⟩ := held
      refine ⟨?_, ih (by omega) ?_ tail⟩
      · rw [← head]
        apply load64_congr
        intro address inside
        exact same address (Nat.lt_of_lt_of_le inside (by omega))
      · intro address inside
        exact same address (inside_next bound inside)

/-- A word stored just below a row becomes its first. -/
theorem WordsAt.push (bound : 8 * (words.length + 1) ≤ 2 ^ 64) (held : bytes.WordsAt start words)
    (word : BitVec 64) : (bytes.store64 (start - 8) word).WordsAt (start - 8) (word :: words) := by
  refine ⟨load64_store64 word, ?_⟩
  rw [BitVec.sub_add_cancel]
  refine held.congr (by omega) ?_
  intro address inside
  apply patch_outside
  simp only [Inside] at inside ⊢
  bv_omega

theorem WordsAt.split (held : bytes.WordsAt start (words ++ rest)) :
    bytes.WordsAt start words ∧ bytes.WordsAt (start + BitVec.ofNat 64 (8 * words.length)) rest := by
  induction words generalizing start with
  | nil => exact ⟨trivial, by simpa using held⟩
  | cons word more ih =>
      obtain ⟨head, tail⟩ := held
      obtain ⟨front, back⟩ := ih tail
      refine ⟨⟨head, front⟩, ?_⟩
      rw [List.length_cons, Nat.mul_succ, BitVec.ofNat_add, BitVec.add_comm (BitVec.ofNat 64 _), ← BitVec.add_assoc]
      exact back

def readWords (bytes : Bytes) (start : Address) : Nat → List (BitVec 64)
  | 0 => []
  | count + 1 => bytes.load64 start :: readWords bytes (start + 8) count

/-- The words before the first zero, and the address after it.  The words cycle
through the address space, so that a row that has not ended by then never does. -/
def readToZero (bytes : Bytes) : Nat → Address → Option (List (BitVec 64) × Address)
  | 0, _ => none
  | fuel + 1, start =>
      if bytes.load64 start = 0 then some ([], start + 8)
      else (readToZero bytes fuel (start + 8)).map fun result => (bytes.load64 start :: result.1, result.2)

theorem WordsAt.readWords (held : bytes.WordsAt start words) : bytes.readWords start words.length = words := by
  induction words generalizing start with
  | nil => rfl
  | cons word rest ih =>
      obtain ⟨head, tail⟩ := held
      rw [List.length_cons, Bytes.readWords, head, ih tail]

theorem WordsAt.readToZero {fuel : Nat} (enough : words.length < fuel) (nonzero : ∀ word ∈ words, word ≠ 0)
    (held : bytes.WordsAt start (words ++ 0 :: rest)) :
    ∃ next, bytes.readToZero fuel start = some (words, next) ∧ bytes.WordsAt next rest := by
  induction words generalizing start fuel with
  | nil =>
      cases fuel with
      | zero => exact absurd enough (Nat.not_lt_zero _)
      | succ fuel =>
          rw [List.nil_append, WordsAt] at held
          refine ⟨start + 8, ?_, held.2⟩
          rw [Bytes.readToZero, if_pos held.1]
  | cons word more ih =>
      cases fuel with
      | zero => exact absurd enough (Nat.not_lt_zero _)
      | succ fuel =>
          obtain ⟨head, tail⟩ := held
          obtain ⟨next, read, after⟩ := ih (by simpa using enough)
            (fun other member => nonzero other (List.mem_cons_of_mem word member)) tail
          have running := nonzero word List.mem_cons_self
          refine ⟨next, ?_, after⟩
          rw [Bytes.readToZero, head, if_neg running, read]
          rfl

end Sloader.Data.Bytes
