import Sloader.Data.Bytes
import Mathlib.Data.List.Basic

namespace Sloader.Data

/-! Sets of addresses as lists of ranges, which may overlap and wrap. -/

def Covered (ranges : List (Address × Nat)) (address : Address) : Prop :=
  ∃ range ∈ ranges, Inside range.1 range.2 address

/-- What is left of a range without the `count` addresses from `start` on: a part
before them, and a part behind them. -/
def cutRange (start : Address) (count : Nat) (range : Address × Nat) : List (Address × Nat) :=
  let room := min range.2 (2 ^ 64)
  let first := (start - range.1).toNat
  let last := first + count
  -- if the hole wraps, it also takes the first addresses of the range
  let wrapped := last - 2 ^ 64
  [(range.1 + BitVec.ofNat 64 wrapped, min room first - wrapped), (range.1 + BitVec.ofNat 64 last, room - last)]

def cutRanges (start : Address) (count : Nat) (ranges : List (Address × Nat)) : List (Address × Nat) :=
  ranges.flatMap (cutRange start count)

variable {start address : Address} {count : Nat} {range : Address × Nat} {ranges : List (Address × Nat)}

theorem inside_shifted {offset size : Nat} (bound : size = 0 ∨ offset + size ≤ 2 ^ 64) :
    Inside (start + BitVec.ofNat 64 offset) size address ↔
      offset ≤ (address - start).toNat ∧ (address - start).toNat < offset + size := by
  have place : (address - (start + BitVec.ofNat 64 offset)).toNat =
      ((address - start).toNat + (2 ^ 64 - offset % 2 ^ 64)) % 2 ^ 64 := by
    bv_omega
  have inMemory := (address - start).isLt
  rw [Inside, place]
  generalize (address - start).toNat = index at *
  omega

theorem covered_cutRange :
    Covered (cutRange start count range) address ↔ Inside range.1 range.2 address ∧ ¬ Inside start count address := by
  obtain ⟨base, size⟩ := range
  have before : min (min size (2 ^ 64)) (start - base).toNat - ((start - base).toNat + count - 2 ^ 64) = 0 ∨
      (start - base).toNat + count - 2 ^ 64 +
        (min (min size (2 ^ 64)) (start - base).toNat - ((start - base).toNat + count - 2 ^ 64)) ≤ 2 ^ 64 := by
    omega
  have behind : min size (2 ^ 64) - ((start - base).toNat + count) = 0 ∨
      (start - base).toNat + count + (min size (2 ^ 64) - ((start - base).toNat + count)) ≤ 2 ^ 64 := by
    omega
  simp only [Covered, cutRange, List.mem_cons, List.not_mem_nil, or_false, exists_eq_or_imp, exists_eq_left]
  rw [inside_shifted before, inside_shifted behind, Inside, Inside]
  have place : (address - start).toNat =
      ((address - base).toNat + (2 ^ 64 - (start - base).toNat)) % 2 ^ 64 := by
    bv_omega
  have inMemory := (address - base).isLt
  have firstInMemory := (start - base).isLt
  rw [place]
  clear before behind place
  generalize (start - base).toNat = first at *
  generalize (address - base).toNat = index at *
  omega

theorem covered_cutRanges :
    Covered (cutRanges start count ranges) address ↔ Covered ranges address ∧ ¬ Inside start count address := by
  have each (range : Address × Nat) := @covered_cutRange start address count range
  simp only [Covered] at each ⊢
  constructor
  · rintro ⟨piece, member, inside⟩
    obtain ⟨range, isRange, inRange⟩ := List.mem_flatMap.mp member
    obtain ⟨within, outside⟩ := (each range).mp ⟨piece, inRange, inside⟩
    exact ⟨⟨range, isRange, within⟩, outside⟩
  · rintro ⟨⟨range, isRange, within⟩, outside⟩
    obtain ⟨piece, inRange, inside⟩ := (each range).mpr ⟨within, outside⟩
    exact ⟨piece, List.mem_flatMap.mpr ⟨range, isRange, inRange⟩, inside⟩

theorem covered_append {more : List (Address × Nat)} :
    Covered (ranges ++ more) address ↔ Covered ranges address ∨ Covered more address := by
  simp only [Covered, List.mem_append, or_and_right, exists_or]

/-- The ranges `new`, the last of them first, were handed out while `used` were in
use, each when it met none of those before it. -/
structure Grants (used new : List (Address × Nat)) : Prop where
  apart : new.Pairwise fun later earlier => Apart later.1 later.2 earlier.1 earlier.2
  unused : ∀ range ∈ new, ∀ address, Inside range.1 range.2 address → ¬ Covered used address

variable {used new more : List (Address × Nat)}

theorem Grants.nothing : Grants used [] :=
  ⟨List.Pairwise.nil, by simp⟩

theorem Grants.grant (grants : Grants used new)
    (free : ∀ address, Inside range.1 range.2 address → ¬ Covered (new ++ used) address) :
    Grants used (range :: new) := by
  refine ⟨List.pairwise_cons.mpr ⟨?_, grants.apart⟩, ?_⟩
  · intro earlier member address inside inEarlier
    exact free address inside (covered_append.mpr (.inl ⟨earlier, member, inEarlier⟩))
  · intro other member address inside
    rcases List.mem_cons.mp member with rfl | inNew
    · exact fun covered => free address inside (covered_append.mpr (.inr covered))
    · exact grants.unused other inNew address inside

theorem Grants.append (grants : Grants used new) (later : Grants (new ++ used) more) : Grants used (more ++ new) := by
  refine ⟨List.pairwise_append.mpr ⟨later.apart, grants.apart, ?_⟩, ?_⟩
  · intro last inMore earlier inNew address inside inEarlier
    exact later.unused last inMore address inside (covered_append.mpr (.inl ⟨earlier, inNew, inEarlier⟩))
  · intro range member address inside covered
    rcases List.mem_append.mp member with inMore | inNew
    · exact later.unused range inMore address inside (covered_append.mpr (.inr covered))
    · exact grants.unused range inNew address inside covered

end Sloader.Data
