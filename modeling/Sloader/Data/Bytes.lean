import Mathlib.Data.BitVec
import Mathlib.Tactic.Ring

namespace Sloader.Data

/-! Byte memories over a wrapping 64-bit address space.

A memory is a total function from addresses to bytes.  Every bulk operation is
one `patch`: it replaces `count` bytes from `start` on and leaves the others
alone, so the two lemmas `patch_inside` and `patch_outside` are all that clients
need to know about stores, copies and fills.
-/

abbrev Address := BitVec 64

abbrev Bytes := Address → UInt8

/-- The `count` addresses from `start` on, wrapping at the end of memory. -/
def Inside (start : Address) (count : Nat) (address : Address) : Prop :=
  (address - start).toNat < count

instance (start : Address) (count : Nat) (address : Address) :
    Decidable (Inside start count address) :=
  inferInstanceAs (Decidable ((address - start).toNat < count))

def Apart (left : Address) (leftCount : Nat) (right : Address) (rightCount : Nat) : Prop :=
  ∀ address, Inside left leftCount address → ¬ Inside right rightCount address

theorem offset_toNat {start : Address} {offset : Nat} (bound : offset < 2 ^ 64) :
    (start + BitVec.ofNat 64 offset - start).toNat = offset := by
  rw [BitVec.add_comm, BitVec.add_sub_cancel, BitVec.toNat_ofNat, Nat.mod_eq_of_lt bound]

theorem Inside.offset {start : Address} {count offset : Nat}
    (within : offset < count) (bound : offset < 2 ^ 64) :
    Inside start count (start + BitVec.ofNat 64 offset) := by
  rw [Inside, offset_toNat bound]
  exact within

theorem add_offset_eq (start address : Address) :
    start + BitVec.ofNat 64 (address - start).toNat = address := by
  rw [BitVec.ofNat_toNat, BitVec.setWidth_eq, BitVec.add_comm, BitVec.sub_add_cancel]

theorem succ_offset (start : Address) (offset : Nat) :
    start + 1 + BitVec.ofNat 64 offset = start + BitVec.ofNat 64 (offset + 1) := by
  rw [BitVec.ofNat_add, BitVec.add_assoc, BitVec.add_comm 1]
  rfl

theorem Inside.exists_offset {start address : Address} {count : Nat}
    (inside : Inside start count address) :
    ∃ offset, offset < count ∧ offset < 2 ^ 64 ∧ address = start + BitVec.ofNat 64 offset :=
  ⟨(address - start).toNat, inside, (address - start).isLt, (add_offset_eq start address).symm⟩

theorem apart_of_starts {left right : Address} {leftCount rightCount : Nat}
    (rightOutside : leftCount ≤ (right - left).toNat) (leftOutside : rightCount ≤ (left - right).toNat) :
    Apart left leftCount right rightCount := by
  intro address inLeft inRight
  simp only [Inside] at inLeft inRight
  bv_omega

theorem Apart.symm {left right : Address} {leftCount rightCount : Nat}
    (apart : Apart left leftCount right rightCount) : Apart right rightCount left leftCount :=
  fun address inRight inLeft => apart address inLeft inRight

/-- One range lies within another, both wrapping. -/
theorem within_iff {outer inner : Address} {outerCount innerCount : Nat} (bound : outerCount < 2 ^ 64) :
    (∀ address, Inside inner innerCount address → Inside outer outerCount address) ↔
      innerCount = 0 ∨ (inner - outer).toNat + innerCount ≤ outerCount := by
  constructor
  · intro within
    by_contra overlong
    -- the first byte of the inner range that is not in the outer one
    obtain ⟨past, isPast⟩ : ∃ past, past = outerCount - (inner - outer).toNat := ⟨_, rfl⟩
    have inInner := @Inside.offset inner innerCount past (by omega) (by omega)
    have inOuter := within _ inInner
    unfold Inside at inOuter
    bv_omega
  · intro fits address inside
    unfold Inside at inside ⊢
    bv_omega

theorem and_shiftedOnes {w : Nat} (word : BitVec w) (bits : Nat) :
    word &&& BitVec.allOnes w <<< bits = word >>> bits <<< bits := by
  ext index bound
  simp only [BitVec.getElem_and, BitVec.getElem_shiftLeft, BitVec.getElem_allOnes, BitVec.getElem_ushiftRight]
  by_cases low : index < bits
  · simp [low]
  · have high : bits + (index - bits) = index := by omega
    simp [low, high, BitVec.getLsbD_eq_getElem bound]

namespace Bytes

variable {bytes other : Bytes} {start address : Address} {count : Nat} {value : Nat → UInt8}

def patch (bytes : Bytes) (start : Address) (count : Nat) (value : Nat → UInt8) : Bytes :=
  fun address =>
    if Inside start count address then value (address - start).toNat else bytes address

theorem patch_inside (inside : Inside start count address) :
    bytes.patch start count value address = value (address - start).toNat :=
  if_pos inside

theorem patch_outside (outside : ¬ Inside start count address) :
    bytes.patch start count value address = bytes address :=
  if_neg outside

theorem patch_offset {offset : Nat} (within : offset < count) (bound : offset < 2 ^ 64) :
    bytes.patch start count value (start + BitVec.ofNat 64 offset) = value offset := by
  rw [patch_inside (Inside.offset within bound), offset_toNat bound]

def wordByte (word : Nat) (index : Nat) : UInt8 :=
  UInt8.ofNat (word / 256 ^ index)

def load (bytes : Bytes) (start : Address) : Nat → Nat
  | 0 => 0
  | count + 1 => (bytes start).toNat + 256 * load bytes (start + 1) count

def load16 (bytes : Bytes) (start : Address) : BitVec 16 :=
  BitVec.ofNat 16 (bytes.load start 2)

def load32 (bytes : Bytes) (start : Address) : BitVec 32 :=
  BitVec.ofNat 32 (bytes.load start 4)

def load64 (bytes : Bytes) (start : Address) : BitVec 64 :=
  BitVec.ofNat 64 (bytes.load start 8)

def store64 (bytes : Bytes) (start : Address) (word : BitVec 64) : Bytes :=
  bytes.patch start 8 (wordByte word.toNat)

theorem load_congr
    (same : ∀ offset < count, bytes (start + BitVec.ofNat 64 offset) = other (start + BitVec.ofNat 64 offset)) :
    bytes.load start count = other.load start count := by
  induction count generalizing start with
  | zero => rfl
  | succ count ih =>
      have head : bytes start = other start := by simpa using same 0 (by omega)
      have tail : bytes.load (start + 1) count = other.load (start + 1) count := by
        apply ih
        intro offset within
        rw [succ_offset]
        exact same (offset + 1) (by omega)
      simp only [load, head, tail]

theorem load64_congr
    (same : ∀ address, Inside start 8 address → bytes address = other address) :
    bytes.load64 start = other.load64 start := by
  unfold load64
  rw [load_congr]
  intro offset within
  exact same _ (Inside.offset within (by omega))

theorem load_digits (word first : Nat)
    (digits : ∀ offset < count, bytes (start + BitVec.ofNat 64 offset) = wordByte word (first + offset)) :
    bytes.load start count = word / 256 ^ first % 256 ^ count := by
  induction count generalizing start first with
  | zero => simp [load, Nat.mod_one]
  | succ count ih =>
      have head : bytes start = wordByte word first := by simpa using digits 0 (by omega)
      have tail := @ih (start + 1) (first + 1) (by
        intro offset within
        rw [succ_offset, Nat.add_assoc, Nat.add_comm 1 offset]
        exact digits (offset + 1) (by omega))
      have split : word / 256 ^ first % 256 ^ (count + 1) =
          word / 256 ^ first % 256 + 256 * (word / 256 ^ (first + 1) % 256 ^ count) := by
        rw [Nat.pow_succ 256 first, ← Nat.div_div_eq_div_mul, Nat.pow_succ, Nat.mul_comm (256 ^ count),
          Nat.mod_mul]
      simp only [load, head, tail, split, wordByte, UInt8.toNat_ofNat', Nat.reducePow]

theorem load64_of_bytes {word : BitVec 64}
    (stored : ∀ offset < 8, bytes (start + BitVec.ofNat 64 offset) = wordByte word.toNat offset) :
    bytes.load64 start = word := by
  have digits : bytes.load start 8 = word.toNat / 256 ^ 0 % 256 ^ 8 :=
    load_digits word.toNat 0 (by simpa using stored)
  apply BitVec.eq_of_toNat_eq
  rw [load64, digits]
  have bound := word.isLt
  simp only [Nat.pow_zero, Nat.div_one, BitVec.toNat_ofNat]
  omega

@[simp] theorem load64_store64 (word : BitVec 64) : (bytes.store64 start word).load64 start = word :=
  load64_of_bytes fun _ within => patch_offset within (by omega)

def cstringFrom (bytes : Bytes) : Nat → Address → Option (List UInt8)
  | 0, _ => none
  | fuel + 1, start =>
      if bytes start = 0 then some []
      else (cstringFrom bytes fuel (start + 1)).map (bytes start :: ·)

/-- The zero-terminated string at `start`.  The address space has `2 ^ 64`
bytes, so a string that has not ended by then never ends. -/
def cstring (bytes : Bytes) (start : Address) : Option (List UInt8) :=
  cstringFrom bytes (2 ^ 64) start

/-- The addresses read by `cstring`: everything up to the first zero, included. -/
def InCString (bytes : Bytes) (start address : Address) : Prop :=
  ∀ offset < (address - start).toNat, bytes (start + BitVec.ofNat 64 offset) ≠ 0

theorem cstringFrom_congr (fuel first : Nat) (room : first + fuel ≤ 2 ^ 64)
    (running : ∀ offset < first, bytes (start + BitVec.ofNat 64 offset) ≠ 0)
    (same : ∀ address, bytes.InCString start address → other address = bytes address) :
    other.cstringFrom fuel (start + BitVec.ofNat 64 first) =
      bytes.cstringFrom fuel (start + BitVec.ofNat 64 first) := by
  induction fuel generalizing first with
  | zero => rfl
  | succ fuel ih =>
      have here : other (start + BitVec.ofNat 64 first) = bytes (start + BitVec.ofNat 64 first) := by
        apply same
        intro offset before
        rw [offset_toNat (by omega)] at before
        exact running offset before
      simp only [cstringFrom, here]
      split
      · rfl
      · rename_i nonzero
        have next : start + BitVec.ofNat 64 first + 1 = start + BitVec.ofNat 64 (first + 1) := by
          rw [BitVec.add_assoc, BitVec.ofNat_add]
          rfl
        have rest := ih (first + 1) (by omega) (by
          intro offset before
          by_cases last : offset = first
          · rw [last]; exact nonzero
          · exact running offset (by omega))
        rw [next, rest]

theorem cstring_congr (same : ∀ address, bytes.InCString start address → other address = bytes address) :
    other.cstring start = bytes.cstring start := by
  have result := cstringFrom_congr (2 ^ 64) 0 (by omega) (by omega) same
  simpa [cstring] using result

theorem exists_zero_of_cstringFrom {fuel : Nat} {text : List UInt8}
    (read : bytes.cstringFrom fuel start = some text) : ∃ address, bytes address = 0 := by
  induction fuel generalizing start text with
  | zero => simp [cstringFrom] at read
  | succ fuel ih =>
      simp only [cstringFrom] at read
      split at read
      · exact ⟨start, by assumption⟩
      · obtain ⟨rest, tail, _⟩ := Option.map_eq_some_iff.mp read
        exact ih tail

theorem cstringFrom_isSome {fuel offset : Nat} (within : offset < fuel)
    (zero : bytes (start + BitVec.ofNat 64 offset) = 0) : (bytes.cstringFrom fuel start).isSome = true := by
  induction fuel generalizing start offset with
  | zero => omega
  | succ fuel ih =>
      simp only [cstringFrom]
      split
      · rfl
      · rename_i nonzero
        cases offset with
        | zero => exact absurd (by simpa using zero) nonzero
        | succ offset =>
            rw [Option.isSome_map]
            exact ih (by omega : offset < fuel) (by rwa [succ_offset])

theorem cstring_isSome {text : List UInt8} (read : bytes.cstring start = some text) :
    (bytes.cstring address).isSome = true := by
  obtain ⟨zero, isZero⟩ := exists_zero_of_cstringFrom read
  apply cstringFrom_isSome (zero - address).isLt
  rw [add_offset_eq]
  exact isZero

theorem cstringFrom_length {fuel : Nat} {text : List UInt8}
    (read : bytes.cstringFrom fuel start = some text) : text.length ≤ fuel := by
  induction fuel generalizing start text with
  | zero => simp [cstringFrom] at read
  | succ fuel ih =>
      simp only [cstringFrom] at read
      split at read
      · cases read; simp
      · obtain ⟨rest, tail, rfl⟩ := Option.map_eq_some_iff.mp read
        simpa using ih tail

theorem cstring_length {text : List UInt8} (read : bytes.cstring start = some text) :
    text.length ≤ 2 ^ 64 :=
  cstringFrom_length read

end Bytes

end Sloader.Data
