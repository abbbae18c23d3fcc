import Sloader.Relocate

namespace Sloader

open Data

/-! The two nested loops of `Relocate` as one pass over the entries that are
still to be processed.  Everything that holds of a call is proved of the pass. -/

/-- An entry, with the places of its binary in `binaries_` and of itself in the binary. -/
structure Item where
  binIndex : Nat
  bin : ELFBinary
  index : Nat
  rela : Elf64Rela

def Item.target (item : Item) : Address :=
  item.bin.target item.rela

def Item.record (item : Item) (name : CString) (scope : Nat) (memory : Memory) (write : Write) : Processed where
  binary := item.binIndex
  entry := item.index
  rela := item.rela
  name := name
  scope := scope
  memory := memory
  write := write

def itemsOf (placed : ELFBinary × Nat) : List Item :=
  placed.1.entries.zipIdx.map fun entry => ⟨placed.2, placed.1, entry.2, entry.1⟩

/-- The binaries that the outer loop does not skip. -/
def pending : List PathKey → List (ELFBinary × Nat) → List (ELFBinary × Nat)
  | _, [] => []
  | relocated, placed :: rest =>
      if pathKey placed.1.path ∈ relocated then pending relocated rest
      else placed :: pending (pathKey placed.1.path :: relocated) rest

/-- The paths that are marked when the outer loop is over. -/
def marked : List PathKey → List (ELFBinary × Nat) → List PathKey
  | relocated, [] => relocated
  | relocated, placed :: rest =>
      if pathKey placed.1.path ∈ relocated then marked relocated rest
      else marked (pathKey placed.1.path :: relocated) rest

def pass (host : Host) (binaries : List ELFBinary) : Memory → List Item → Except Stop (Memory × List Processed)
  | memory, [] => .ok (memory, [])
  | memory, item :: rest => do
      let (name, write) ← resolveEntry host memory binaries item.bin item.rela
      let (after, records) ← pass host binaries (write.apply memory) rest
      return (after, item.record name binaries.length memory write :: records)

variable {host : Host} {binaries : List ELFBinary} {memory after : Memory} {items rest : List Item}
  {records : List Processed} {loader next : DynLoader}

theorem pass_append (items rest : List Item) :
    pass host binaries memory (items ++ rest) = (do
      let (middle, records) ← pass host binaries memory items
      let (after, later) ← pass host binaries middle rest
      return (after, records ++ later)) := by
  induction items generalizing memory with
  | nil =>
      change _ = (fun result => (result.1, [] ++ result.2)) <$> pass host binaries memory rest
      simp
  | cons item remaining ih =>
      simp only [List.cons_append, pass, ih, bind_assoc, pure_bind, List.cons_append]

theorem pass_append_ok {result : Memory × List Processed} :
    pass host binaries memory (items ++ rest) = .ok result ↔
      ∃ middle records later, pass host binaries memory items = .ok (middle, records) ∧
        pass host binaries middle rest = .ok (result.1, later) ∧ result.2 = records ++ later := by
  simp only [pass_append, bind_eq_ok, pure_eq_ok, Prod.exists]
  constructor
  · rintro ⟨middle, records, first, after, later, second, rfl⟩
    exact ⟨middle, records, later, first, second, rfl⟩
  · rintro ⟨middle, records, later, first, second, same⟩
    exact ⟨middle, records, first, result.1, later, second, by rw [← same]⟩

theorem pass_cons_ok {item : Item} :
    pass host binaries memory (item :: rest) = .ok (after, records) ↔
      ∃ name write later, resolveEntry host memory binaries item.bin item.rela = .ok (name, write) ∧
        pass host binaries (write.apply memory) rest = .ok (after, later) ∧
        records = item.record name binaries.length memory write :: later := by
  simp only [pass, bind_eq_ok, pure_eq_ok, Prod.exists, Prod.mk.injEq]
  constructor
  · rintro ⟨name, write, resolved, last, later, passed, rfl, rfl⟩
    exact ⟨name, write, later, resolved, passed, rfl⟩
  · rintro ⟨name, write, later, resolved, passed, rfl⟩
    exact ⟨name, write, resolved, after, later, passed, rfl, rfl⟩

theorem mem_itemsOf {placed : ELFBinary × Nat} {item : Item} :
    item ∈ itemsOf placed ↔
      item.binIndex = placed.2 ∧ item.bin = placed.1 ∧ placed.1.entries[item.index]? = some item.rela := by
  simp only [itemsOf, List.mem_map, Prod.exists, List.mem_zipIdx_iff_getElem?]
  constructor
  · rintro ⟨rela, index, found, rfl⟩
    exact ⟨rfl, rfl, found⟩
  · obtain ⟨binIndex, bin, index, rela⟩ := item
    rintro ⟨rfl, rfl, found⟩
    exact ⟨rela, index, found, rfl⟩

theorem pending_sublist (relocated : List PathKey) (placed : List (ELFBinary × Nat)) :
    (pending relocated placed).Sublist placed := by
  induction placed generalizing relocated with
  | nil => exact List.nil_sublist []
  | cons head rest ih =>
      simp only [pending]
      split
      · exact (ih relocated).cons head
      · exact (ih _).cons_cons head

namespace DynLoader

/-- The entries that a call of `Relocate` processes, in order. -/
def work (loader : DynLoader) : List Item :=
  (pending loader.relocated loader.binaries.zipIdx).flatMap itemsOf

theorem mem_work {item : Item} (member : item ∈ loader.work) :
    loader.binaries[item.binIndex]? = some item.bin ∧ item.bin.entries[item.index]? = some item.rela := by
  obtain ⟨placed, isPending, inPlaced⟩ := List.mem_flatMap.mp member
  obtain ⟨index, bin, entry⟩ := mem_itemsOf.mp inPlaced
  have isPlaced := List.mem_zipIdx_iff_getElem?.mp ((pending_sublist _ _).subset isPending)
  rw [index, bin]
  exact ⟨isPlaced, entry⟩

def processedBy (loader : DynLoader) (result : Memory × List Processed) : DynLoader :=
  { loader with
    memory := result.1
    processed := loader.processed ++ result.2 }

theorem foldlM_relocateEntry (placed : ELFBinary × Nat) (entries : List (Elf64Rela × Nat)) (loader : DynLoader) :
    entries.foldlM (relocateEntry host placed.2 placed.1) loader =
      loader.processedBy <$> pass host loader.binaries loader.memory
        (entries.map fun entry => ⟨placed.2, placed.1, entry.2, entry.1⟩) := by
  induction entries generalizing loader with
  | nil => simp [pass, processedBy, pure, Except.pure]
  | cons entry rest ih =>
      simp only [List.foldlM_cons, List.map_cons, pass, relocateEntry, map_bind, bind_assoc, pure_bind, map_pure]
      congr 1
      funext resolved
      rw [ih]
      simp only [map_eq_pure_bind, processedBy, Item.record, List.append_assoc, List.singleton_append]

theorem foldlM_relocateBinary (placed : List (ELFBinary × Nat)) (loader : DynLoader) :
    placed.foldlM (relocateBinary host) loader =
      (fun result => { loader.processedBy result with relocated := marked loader.relocated placed }) <$>
        pass host loader.binaries loader.memory ((pending loader.relocated placed).flatMap itemsOf) := by
  induction placed generalizing loader with
  | nil => simp [pass, processedBy, pending, marked, pure, Except.pure]
  | cons head rest ih =>
      rw [List.foldlM_cons, relocateBinary]
      by_cases done : pathKey head.1.path ∈ loader.relocated
      · simp only [done, if_true, pending, marked]
        exact ih loader
      · simp only [done, if_false, pending, marked, foldlM_relocateEntry, List.flatMap_cons, pass_append,
          map_eq_pure_bind, bind_assoc, pure_bind, itemsOf]
        congr 1
        funext result
        rw [ih]
        simp only [map_eq_pure_bind, processedBy, List.append_assoc]

theorem relocate_eq (loader : DynLoader) :
    loader.relocate host =
      (fun result =>
        { loader.processedBy result with relocated := marked loader.relocated loader.binaries.zipIdx }) <$>
        pass host loader.binaries loader.memory loader.work :=
  foldlM_relocateBinary loader.binaries.zipIdx loader

theorem relocate_pass (ran : loader.relocate host = .ok next) :
    ∃ records, pass host loader.binaries loader.memory loader.work = .ok (next.memory, records) ∧
      next = { loader with
        memory := next.memory
        processed := loader.processed ++ records
        relocated := marked loader.relocated loader.binaries.zipIdx } := by
  rw [relocate_eq, map_eq_pure_bind, bind_eq_ok] at ran
  obtain ⟨⟨after, records⟩, passed, same⟩ := ran
  simp only [pure_eq_ok] at same
  subst same
  exact ⟨records, passed, rfl⟩

theorem relocate_binaries (ran : loader.relocate host = .ok next) : next.binaries = loader.binaries := by
  obtain ⟨_, _, same⟩ := relocate_pass ran
  rw [same]

theorem relocate_nextBaseAddr (ran : loader.relocate host = .ok next) :
    next.nextBaseAddr = loader.nextBaseAddr := by
  obtain ⟨_, _, same⟩ := relocate_pass ran
  rw [same]

theorem relocate_mapFile (ran : loader.relocate host = .ok next) : next.mapFile = loader.mapFile := by
  obtain ⟨_, _, same⟩ := relocate_pass ran
  rw [same]

theorem relocate_tlsOffset (ran : loader.relocate host = .ok next) : next.tlsOffset = loader.tlsOffset := by
  obtain ⟨_, _, same⟩ := relocate_pass ran
  rw [same]

end DynLoader

end Sloader
