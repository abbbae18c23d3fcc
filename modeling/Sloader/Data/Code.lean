import Sloader.Data.Bytes

namespace Sloader.Data

/-! Code that loads and stores bytes, as the tree of what it does next, and the
accesses that are seen of it. -/

inductive Access where
  | load (address : Address) (value : UInt8)
  | store (address : Address) (value : UInt8)
deriving Repr, DecidableEq

inductive Code where
  | done
  | load (address : Address) (next : UInt8 → Code)
  | store (address : Address) (value : UInt8) (next : Code)

def Bytes.set (bytes : Bytes) (address : Address) (value : UInt8) : Bytes :=
  fun other => if other = address then value else bytes other

/-- The accesses that the code makes, and the memory it leaves. -/
def Code.run : Code → Bytes → List Access × Bytes
  | .done, bytes => ([], bytes)
  | .load address next, bytes =>
      let rest := (next (bytes address)).run bytes
      (.load address (bytes address) :: rest.1, rest.2)
  | .store address value next, bytes =>
      let rest := next.run (bytes.set address value)
      (.store address value :: rest.1, rest.2)

def Access.storedAt (address : Address) : Access → Option UInt8
  | .load _ _ => none
  | .store other value => if other = address then some value else none

def lastStore (accesses : List Access) (address : Address) : Option UInt8 :=
  accesses.reverse.findSome? (Access.storedAt address)

/-- Whatever it loads, the code stores to these addresses only. -/
def Code.StoresWithin (stores : Set Address) : Code → Prop
  | .done => True
  | .load _ next => ∀ value, (next value).StoresWithin stores
  | .store address _ next => address ∈ stores ∧ next.StoresWithin stores

/-- The accesses lead from one memory to the other, and each load sees what is
there. -/
def Follows (before : Bytes) : List Access → Bytes → Prop
  | [], after => after = before
  | .load address value :: rest, after => value = before address ∧ Follows before rest after
  | .store address value :: rest, after => Follows (before.set address value) rest after

variable {before middle after : Bytes} {accesses earlier later : List Access} {address : Address} {value : UInt8}

theorem Code.run_follows (code : Code) (bytes : Bytes) : Follows bytes (code.run bytes).1 (code.run bytes).2 := by
  induction code generalizing bytes with
  | done => rfl
  | load address next ih => exact ⟨rfl, ih (bytes address) bytes⟩
  | store address value next ih => exact ih (bytes.set address value)

theorem Code.run_outside {stores : Set Address} {code : Code} {bytes : Bytes} (within : code.StoresWithin stores)
    (outside : address ∉ stores) : (code.run bytes).2 address = bytes address := by
  induction code generalizing bytes with
  | done => rfl
  | load other next ih => exact ih (bytes other) (within (bytes other))
  | store other value next ih =>
      have differ : address ≠ other := fun same => outside (same ▸ within.1)
      rw [Code.run, ih within.2, Bytes.set, if_neg differ]

theorem follows_append :
    Follows before (earlier ++ later) after ↔ ∃ middle, Follows before earlier middle ∧ Follows middle later after := by
  induction earlier generalizing before with
  | nil => simp [Follows]
  | cons access rest ih =>
      cases access with
      | load address value => simp only [List.cons_append, Follows, ih, and_assoc, exists_and_left]
      | store address value => simp only [List.cons_append, Follows, ih]

theorem lastStore_cons {access : Access} :
    lastStore (access :: accesses) address = (lastStore accesses address).or (access.storedAt address) := by
  simp [lastStore, List.findSome?_append]

/-- What is last stored at an address stays there. -/
theorem Follows.bytes (follows : Follows before accesses after) (address : Address) :
    after address = (lastStore accesses address).getD (before address) := by
  induction accesses generalizing before with
  | nil => exact congrFun follows address
  | cons access rest ih =>
      rw [lastStore_cons]
      cases access with
      | load other value =>
          rw [ih follows.2, Access.storedAt, Option.or_none]
      | store other value =>
          rw [ih follows, Access.storedAt, Bytes.set]
          cases lastStore rest address with
          | some byte => rfl
          | none => by_cases same : address = other <;> simp [same, eq_comm]

theorem Follows.load (follows : Follows before (earlier ++ .load address value :: later) after) :
    value = (lastStore earlier address).getD (before address) := by
  obtain ⟨middle, reached, sees, _⟩ := follows_append.mp follows
  rw [sees, reached.bytes address]

theorem lastStore_mem (stored : lastStore accesses address = some value) : .store address value ∈ accesses := by
  obtain ⟨access, member, here⟩ := List.exists_of_findSome?_eq_some stored
  cases access with
  | load _ _ => contradiction
  | store other byte =>
      simp only [Access.storedAt] at here
      split at here
      · rename_i same
        cases here
        rw [← same]
        exact List.mem_reverse.mp member
      · contradiction

/-- An address that is never stored to keeps its byte. -/
theorem Follows.unstored (follows : Follows before accesses after)
    (unstored : ∀ value, .store address value ∉ accesses) : after address = before address := by
  rw [follows.bytes address]
  cases stored : lastStore accesses address with
  | none => rfl
  | some value => exact absurd (lastStore_mem stored) (unstored value)

end Sloader.Data
