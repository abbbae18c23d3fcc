import Sloader.Data.Bytes

namespace Sloader.Data.Bytes

/-! Records in a byte memory: what is read at an address depends on the bytes of
the record and on no others. -/

variable {α : Type} {left right : Bytes} {start : Address} {size count offset : Nat}

def Agree (left right : Bytes) (start : Address) (count : Nat) : Prop :=
  ∀ address, Inside start count address → left address = right address

/-- What is read at an address is made of the `size` bytes from there on. -/
def IsRecord (read : Bytes → Address → α) (size : Nat) : Prop :=
  ∀ left right start, Agree left right start size → read left start = read right start

theorem Agree.part (agree : Agree left right start size) (within : offset + count ≤ size) :
    Agree left right (start + BitVec.ofNat 64 offset) count := by
  intro address inside
  apply agree
  unfold Inside at inside ⊢
  bv_omega

theorem Agree.load (agree : Agree left right start count) (bound : count ≤ 2 ^ 64) :
    left.load start count = right.load start count := by
  apply load_congr
  intro place within
  exact agree _ (Inside.offset within (by omega))

theorem Agree.byte (agree : Agree left right start size) (within : offset < size) :
    left (start + BitVec.ofNat 64 offset) = right (start + BitVec.ofNat 64 offset) := by
  apply agree
  unfold Inside
  bv_omega

theorem Agree.load16 (agree : Agree left right start size) (within : offset + 2 ≤ size) :
    left.load16 (start + BitVec.ofNat 64 offset) = right.load16 (start + BitVec.ofNat 64 offset) := by
  rw [Bytes.load16, Bytes.load16, (agree.part within).load (by decide)]

theorem Agree.load32 (agree : Agree left right start size) (within : offset + 4 ≤ size) :
    left.load32 (start + BitVec.ofNat 64 offset) = right.load32 (start + BitVec.ofNat 64 offset) := by
  rw [Bytes.load32, Bytes.load32, (agree.part within).load (by decide)]

theorem Agree.load64 (agree : Agree left right start size) (within : offset + 8 ≤ size) :
    left.load64 (start + BitVec.ofNat 64 offset) = right.load64 (start + BitVec.ofNat 64 offset) :=
  load64_congr (agree.part within)

end Sloader.Data.Bytes
