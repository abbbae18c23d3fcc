import Sloader.Host

namespace Sloader

open Data

/-! Functions that `sloader_libc_map` puts in the place of those of libc. -/

/-- A character that is passed as an `int`. -/
def toUnsignedChar (c : BitVec 32) : UInt8 :=
  UInt8.ofNat c.toNat

/-- `memchr` of the host's libc, which returns the first match. -/
def memchr (memory : Memory) (s : Address) (c : BitVec 32) (n : Elf64Xword) : Option Address :=
  ((List.range n.toNat).find? fun index => memory.bytes (s + BitVec.ofNat 64 index) == toUnsignedChar c).map
    fun index => s + BitVec.ofNat 64 index

def memrchrC (memory : Memory) (s : Address) (c : BitVec 32) (n : Elf64Xword) : Option Address :=
  memchr memory s c n

variable {memory : Memory} {s address : Address} {c : BitVec 32} {n : Elf64Xword}

/-- The buffer has the character at an index. -/
def Occurs (memory : Memory) (s : Address) (c : BitVec 32) (n : Elf64Xword) (index : Nat) : Prop :=
  index < n.toNat ∧ memory.bytes (s + BitVec.ofNat 64 index) = toUnsignedChar c

/-- What `memrchr` is to return: the last match, and `NULL` if there is none. -/
def LastOccurrence (memory : Memory) (s : Address) (c : BitVec 32) (n : Elf64Xword) : Option Address → Prop
  | some address => ∃ index, address = s + BitVec.ofNat 64 index ∧ Occurs memory s c n index ∧
      ∀ other, Occurs memory s c n other → other ≤ index
  | none => ∀ index, ¬ Occurs memory s c n index

theorem memchr_eq_none : memchr memory s c n = none ↔ ∀ index, ¬ Occurs memory s c n index := by
  simp [memchr, Occurs]

theorem memchr_eq_some :
    memchr memory s c n = some address ↔
      ∃ index, address = s + BitVec.ofNat 64 index ∧ Occurs memory s c n index ∧
        ∀ other, Occurs memory s c n other → index ≤ other := by
  simp only [memchr, Option.map_eq_some_iff, List.find?_range_eq_some, List.mem_range, beq_iff_eq, Occurs,
    Bool.not_eq_true', beq_eq_false_iff_ne]
  constructor
  · intro found
    obtain ⟨index, ⟨same, within, earlier⟩, rfl⟩ := found
    refine ⟨index, rfl, ⟨within, same⟩, ?_⟩
    intro other occurs
    by_contra before
    exact earlier other (by omega) occurs.2
  · intro found
    obtain ⟨index, rfl, ⟨within, same⟩, least⟩ := found
    refine ⟨index, ⟨same, within, ?_⟩, rfl⟩
    intro other before occurs
    have later := least other ⟨by omega, occurs⟩
    omega

theorem Occurs.index_eq {left right : Nat} (inLeft : Occurs memory s c n left) (inRight : Occurs memory s c n right)
    (same : s + BitVec.ofNat 64 left = s + BitVec.ofNat 64 right) : left = right := by
  have bound := n.isLt
  have leftBound := inLeft.1
  have rightBound := inRight.1
  have offsets := congrArg BitVec.toNat (add_left_cancel same)
  rw [BitVec.toNat_ofNat, BitVec.toNat_ofNat] at offsets
  omega

/-- `memrchr_c` calls `memchr`, so that it finds the last match exactly if there
are not two. -/
theorem memrchrC_last_iff (memory : Memory) (s : Address) (c : BitVec 32) (n : Elf64Xword) :
    LastOccurrence memory s c n (memrchrC memory s c n) ↔
      ∀ left right, Occurs memory s c n left → Occurs memory s c n right → left = right := by
  rw [memrchrC]
  cases found : memchr memory s c n with
  | none =>
      have absent := memchr_eq_none.mp found
      exact iff_of_true absent fun left _ inLeft => absurd inLeft (absent left)
  | some address =>
      obtain ⟨first, rfl, occurs, least⟩ := memchr_eq_some.mp found
      constructor
      · intro last left right inLeft inRight
        obtain ⟨index, same, inBuffer, greatest⟩ := last
        have unique := occurs.index_eq inBuffer same
        have leftBounds := And.intro (least left inLeft) (greatest left inLeft)
        have rightBounds := And.intro (least right inRight) (greatest right inRight)
        omega
      · intro unique
        refine ⟨first, rfl, occurs, ?_⟩
        intro other inOther
        rw [unique other first inOther occurs]

/-- The last slash of `a/b/c` is not the one that `memrchr_c` finds. -/
theorem memrchrC_finds_first :
    let path : Memory := ⟨fun address => (ascii "a/b/c").getD address.toNat 0, []⟩
    memrchrC path 0 47 5 = some 1 ∧ Occurs path 0 47 5 3 ∧ ¬ LastOccurrence path 0 47 5 (memrchrC path 0 47 5) := by
  intro path
  have returned : memrchrC path 0 47 5 = some 1 := rfl
  have first : Occurs path 0 47 5 1 := ⟨by decide, rfl⟩
  have last : Occurs path 0 47 5 3 := ⟨by decide, rfl⟩
  refine ⟨returned, last, ?_⟩
  rw [returned]
  intro found
  obtain ⟨index, same, occurs, greatest⟩ := found
  have unique := first.index_eq occurs same
  have bound := greatest 3 last
  omega

end Sloader
