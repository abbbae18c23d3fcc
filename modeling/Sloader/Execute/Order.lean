import Mathlib.Logic.Relation
import Sloader.Execute
import Sloader.Loader.BreadthFirst
import Sloader.Relocate.Pass

namespace Sloader

open Data

/-! The order of initialisers.  `Execute` goes backwards through `binaries_`, so a
binary is initialised after those that it needs just if they come after it there. -/

def Event.call? {α : Type} : Event α → Option Call
  | .call made => some made
  | .act _ => none

def calls {α : Type} (events : List (Event α)) : List Call :=
  events.filterMap Event.call?

/-- Backwards through the binaries, and forwards through the initialisers of each. -/
def Call.Before (earlier later : Call) : Prop :=
  later.binary < earlier.binary ∨ later.binary = earlier.binary ∧ earlier.place.rank < later.place.rank

def Event.Before {α : Type} (earlier later : Event α) : Prop :=
  ∀ first, earlier.call? = some first → ∀ second, later.call? = some second → first.Before second

/-- Nothing is initialised before something it needs; in each binary `DT_INIT` comes
first and the entries of `DT_INIT_ARRAY` follow in their order. -/
def InOrder (needs : Nat → Nat → Prop) (calls : List Call) : Prop :=
  calls.Pairwise fun earlier later => ¬ needs earlier.binary later.binary ∧
    (earlier.binary = later.binary → earlier.place.rank < later.place.rank)

theorem call_mem {α : Type} {events : List (Event α)} {event : Event α} {made : Call} (member : event ∈ events)
    (isCall : event.call? = some made) : .call made ∈ events := by
  cases event with
  | call other =>
      cases isCall
      exact member
  | act _ => contradiction

theorem mem_calls {α : Type} {events : List (Event α)} {made : Call} : made ∈ calls events ↔ .call made ∈ events := by
  rw [calls, List.mem_filterMap]
  constructor
  · rintro ⟨event, member, isCall⟩
    exact call_mem member isCall
  · intro member
    exact ⟨.call made, member, rfl⟩

theorem either_of_pairwise {α : Type} {Ordered : α → α → Prop} {items : List α} {first second : α}
    (pairwise : items.Pairwise Ordered) (inFirst : first ∈ items) (inSecond : second ∈ items)
    (differ : first ≠ second) : Ordered first second ∨ Ordered second first := by
  have symmetric : Std.Symm fun left right => Ordered left right ∨ Ordered right left := ⟨fun _ _ => Or.symm⟩
  have either : items.Pairwise fun left right => Ordered left right ∨ Ordered right left := pairwise.imp Or.inl
  exact either.forall inFirst inSecond differ

/-- In a list that is sorted so, calls follow a relation if it descends. -/
theorem inOrder_iff {needs : Nat → Nat → Prop} {made : List Call} (sorted : made.Pairwise Call.Before)
    (acyclic : ∀ index, ¬ needs index index) :
    InOrder needs made ↔ ∀ source target, needs source target → (∃ call ∈ made, call.binary = source) →
      (∃ call ∈ made, call.binary = target) → source < target := by
  constructor
  · rintro inOrder _ _ isNeeded ⟨first, inFirst, rfl⟩ ⟨second, inSecond, rfl⟩
    by_contra notBefore
    have differ : first ≠ second := by
      rintro rfl
      exact acyclic _ isNeeded
    rcases either_of_pairwise (inOrder.and sorted) inFirst inSecond differ with ⟨unneeded, _⟩ | ⟨_, before⟩
    · exact unneeded.1 isNeeded
    · rcases before with less | ⟨same, _⟩
      · exact notBefore less
      · exact acyclic _ (same ▸ isNeeded)
  · intro ascending
    refine List.Pairwise.imp_of_mem ?_ sorted
    intro earlier later inEarlier inLater before
    constructor
    · intro isNeeded
      have less := ascending _ _ isNeeded ⟨earlier, inEarlier, rfl⟩ ⟨later, inLater, rfl⟩
      rcases before with other | ⟨same, _⟩
      · exact absurd less (Nat.not_lt_of_lt other)
      · exact acyclic _ (same ▸ isNeeded)
    · intro same
      rcases before with other | ⟨_, rank⟩
      · omega
      · exact rank

/-- The binary has a function that its turn calls. -/
def ELFBinary.HasInitialiser (binary : ELFBinary) (memory : Memory) : Prop :=
  binary.init ≠ 0 ∨ binary.initArraysz ≠ 0 ∧ binary.initArraysz % 8 = 0 ∧
    memory.bytes.load64 (binary.initArray + binary.baseAddr) ≠ 0

namespace DynLoader

variable {α : Type} {call : Address → DynLoader → Traced Stop α DynLoader} {loader next : DynLoader}
  {binary index count : Nat} {place made : Call} {funs : Address}

theorem callInitialiser_events :
    (callInitialiser call place loader).events =
      .call place :: (call place.function loader).events.map .act :=
  rfl

theorem mem_callInitialiser : .call made ∈ (callInitialiser call place loader).events ↔ made = place := by
  simp [callInitialiser_events]

theorem callInitialiser_sorted : (callInitialiser call place loader).events.Pairwise Event.Before := by
  rw [callInitialiser_events, List.pairwise_cons]
  constructor
  · intro event member first _ second isCall
    obtain ⟨action, _, rfl⟩ := List.mem_map.mp member
    contradiction
  · rw [List.pairwise_map]
    refine List.pairwise_of_forall ?_
    intro _ _ first isCall
    contradiction

theorem mem_callInitArray (member : .call made ∈ (callInitArray call binary funs count index loader).events) :
    made.binary = binary ∧ index < made.place.rank := by
  induction count generalizing index loader with
  | zero => exact absurd member List.not_mem_nil
  | succ count ih =>
      rw [callInitArray] at member
      split at member
      · exact absurd member List.not_mem_nil
      · rcases Traced.mem_events_bind.mp member with here | ⟨next, _, later⟩
        · rw [mem_callInitialiser.mp here]
          exact ⟨rfl, Nat.lt_succ_self index⟩
        · obtain ⟨same, above⟩ := ih later
          exact ⟨same, by omega⟩

theorem callInitArray_sorted :
    (callInitArray call binary funs count index loader).events.Pairwise Event.Before := by
  induction count generalizing index loader with
  | zero => exact List.Pairwise.nil
  | succ count ih =>
      rw [callInitArray]
      split
      · exact List.Pairwise.nil
      · refine Traced.pairwise_bind callInitialiser_sorted (fun next _ => ih) ?_
        intro next _ earlier inEarlier later inLater first isFirst second isSecond
        obtain ⟨same, above⟩ := mem_callInitArray (call_mem inLater isSecond)
        rw [mem_callInitialiser.mp (call_mem inEarlier isFirst)]
        exact .inr ⟨same, above⟩

variable {loaded : ELFBinary}

theorem mem_callInit :
    .call made ∈ (callInit call index loaded loader).events ↔
      loaded.init ≠ 0 ∧ made = ⟨index, .init, loaded.init + loaded.baseAddr⟩ := by
  rw [callInit]
  split
  · rename_i present
    rw [mem_callInitialiser]
    exact (and_iff_right present).symm
  · rename_i absent
    exact iff_of_false List.not_mem_nil fun made => absent made.1

theorem callInit_sorted : (callInit call index loaded loader).events.Pairwise Event.Before := by
  rw [callInit]
  split
  · exact callInitialiser_sorted
  · exact List.Pairwise.nil

/-- The check passes if the array is called at all. -/
theorem mem_callArray (member : .call made ∈ (callArray call index loaded loader).events) :
    made.binary = index ∧ 0 < made.place.rank ∧ loaded.initArraysz ≠ 0 ∧ loaded.initArraysz % 8 = 0 := by
  rw [callArray] at member
  split at member
  · rename_i present
    rcases Traced.mem_events_bind.mp member with none | ⟨_, passed, later⟩
    · exact absurd none List.not_mem_nil
    · obtain ⟨same, above⟩ := mem_callInitArray later
      rw [Traced.outcome_lift, check_eq_ok, beq_iff_eq] at passed
      exact ⟨same, above, present, passed⟩
  · exact absurd member List.not_mem_nil

theorem callArray_sorted : (callArray call index loaded loader).events.Pairwise Event.Before := by
  rw [callArray]
  split
  · refine Traced.pairwise_bind List.Pairwise.nil (fun _ _ => callInitArray_sorted) ?_
    intro _ _ earlier none
    exact absurd none List.not_mem_nil
  · exact List.Pairwise.nil

theorem exists_callInitArray :
    (∃ made, .call made ∈ (callInitArray call binary funs count 0 loader).events) ↔
      0 < count ∧ loader.memory.bytes.load64 funs ≠ 0 := by
  cases count with
  | zero => simp [callInitArray]
  | succ count =>
      have start : funs + BitVec.ofNat 64 (8 * 0) = funs := BitVec.add_zero funs
      simp only [callInitArray, start, Nat.succ_pos, true_and]
      split
      · rename_i null
        simp [null]
      · rename_i nonnull
        refine iff_of_true ⟨⟨binary, .array 0, loader.memory.bytes.load64 funs⟩, ?_⟩ nonnull
        exact Traced.mem_events_bind.mpr (.inl (mem_callInitialiser.mpr rfl))

/-- The first entry decides whether the array is called. -/
theorem exists_callArray :
    (∃ made, .call made ∈ (callArray call index loaded loader).events) ↔
      loaded.initArraysz ≠ 0 ∧ loaded.initArraysz % 8 = 0 ∧
        loader.memory.bytes.load64 (loaded.initArray + loaded.baseAddr) ≠ 0 := by
  have entries : 0 < (loaded.initArraysz / 8).toNat ↔ 8 ≤ loaded.initArraysz.toNat := by
    rw [BitVec.toNat_udiv]
    exact Nat.div_pos_iff.trans (and_iff_right (by decide))
  rw [callArray]
  split
  · rename_i present
    simp only [Traced.mem_events_bind, Traced.events_lift, List.not_mem_nil, false_or, Traced.outcome_lift,
      check_eq_ok, beq_iff_eq]
    constructor
    · rintro ⟨made, _, aligned, member⟩
      exact ⟨present, aligned, (exists_callInitArray.mp ⟨made, member⟩).2⟩
    · rintro ⟨_, aligned, nonnull⟩
      have multiple : loaded.initArraysz.toNat % 8 = 0 := congrArg BitVec.toNat aligned
      have nonzero : loaded.initArraysz.toNat ≠ 0 := fun zero => present (BitVec.eq_of_toNat_eq zero)
      have enough : 8 ≤ loaded.initArraysz.toNat := by omega
      obtain ⟨made, member⟩ := exists_callInitArray.mpr ⟨entries.mpr enough, nonnull⟩
      exact ⟨made, (), aligned, member⟩
  · rename_i absent
    exact iff_of_false (fun ⟨_, member⟩ => absurd member List.not_mem_nil) fun found => absent found.1

/-- The turn of the binary at an index calls something. -/
def Starts (loader : DynLoader) (index : Nat) : Prop :=
  ∃ loaded, loader.binaries[index]? = some loaded ∧ loaded.HasInitialiser loader.memory

theorem mem_initialise (member : .call made ∈ (initialise call index loader).events) : made.binary = index := by
  rw [initialise] at member
  split at member
  · exact absurd member List.not_mem_nil
  · rcases Traced.mem_events_bind.mp member with first | ⟨_, _, later⟩
    · rw [(mem_callInit.mp first).2]
    · exact (mem_callArray later).1

theorem initialise_sorted : (initialise call index loader).events.Pairwise Event.Before := by
  rw [initialise]
  split
  · exact List.Pairwise.nil
  · refine Traced.pairwise_bind callInit_sorted (fun _ _ => callArray_sorted) ?_
    intro _ _ earlier inEarlier later inLater first isFirst second isSecond
    obtain ⟨same, above, _⟩ := mem_callArray (call_mem inLater isSecond)
    rw [(mem_callInit.mp (call_mem inEarlier isFirst)).2]
    exact .inr ⟨same, above⟩

theorem exists_initialise : (∃ made, .call made ∈ (initialise call index loader).events) ↔ loader.Starts index := by
  rw [initialise, Starts]
  split
  · rename_i missing
    rw [missing]
    exact iff_of_false (fun ⟨_, member⟩ => absurd member List.not_mem_nil) fun ⟨_, found, _⟩ => nomatch found
  · rename_i loaded found
    simp only [found, Option.some.injEq, exists_eq_left', Traced.mem_events_bind, mem_callInit, ELFBinary.HasInitialiser]
    by_cases absent : loaded.init = 0
    · -- nothing has run yet when the array is read
      have skipped : (callInit call index loaded loader).outcome = .ok loader := by simp [callInit, absent]
      simp only [absent, ne_eq, not_true_eq_false, false_and, false_or, skipped, Except.ok.injEq, exists_eq_left']
      exact exists_callArray
    · exact iff_of_true ⟨_, .inl ⟨absent, rfl⟩⟩ (.inl absent)

theorem mem_initialiseDown (member : .call made ∈ (initialiseDown call count loader).events) :
    made.binary < count := by
  induction count generalizing loader with
  | zero => exact absurd member List.not_mem_nil
  | succ count ih =>
      rw [initialiseDown] at member
      rcases Traced.mem_events_bind.mp member with here | ⟨next, _, later⟩
      · rw [mem_initialise here]
        exact Nat.lt_succ_self count
      · exact Nat.lt_succ_of_lt (ih later)

theorem initialiseDown_sorted : (initialiseDown call count loader).events.Pairwise Event.Before := by
  induction count generalizing loader with
  | zero => exact List.Pairwise.nil
  | succ count ih =>
      rw [initialiseDown]
      refine Traced.pairwise_bind initialise_sorted (fun _ _ => ih) ?_
      intro _ _ earlier inEarlier later inLater first isFirst second isSecond
      have below := mem_initialiseDown (call_mem inLater isSecond)
      rw [← mem_initialise (call_mem inEarlier isFirst)] at below
      exact .inl below

theorem calls_sorted : (calls (runInitialisers call loader).events).Pairwise Call.Before := by
  rw [calls, List.pairwise_filterMap]
  exact initialiseDown_sorted

/-- The states in which the loop comes to a binary. -/
inductive Turn (call : Address → DynLoader → Traced Stop α DynLoader) :
    Nat → DynLoader → Nat → DynLoader → Prop where
  | here {index : Nat} {loader : DynLoader} : Turn call (index + 1) loader index loader
  | later {index other : Nat} {loader next state : DynLoader}
      (ran : (initialise call index loader).outcome = .ok next) (turn : Turn call index next other state) :
      Turn call (index + 1) loader other state

/-- The loop comes to the binary, and there is an initialiser to call then. -/
def Initialises (call : Address → DynLoader → Traced Stop α DynLoader) (loader : DynLoader) (index : Nat) : Prop :=
  ∃ state, Turn call loader.binaries.length loader index state ∧ state.Starts index

theorem exists_initialiseDown :
    (∃ made, .call made ∈ (initialiseDown call count loader).events ∧ made.binary = index) ↔
      ∃ state, Turn call count loader index state ∧ state.Starts index := by
  induction count generalizing loader with
  | zero => simp [initialiseDown, fun state => iff_false_intro fun turn : Turn call 0 loader index state => nomatch turn]
  | succ count ih =>
      rw [initialiseDown]
      constructor
      · rintro ⟨made, member, rfl⟩
        rcases Traced.mem_events_bind.mp member with here | ⟨next, ran, later⟩
        · rw [mem_initialise here]
          exact ⟨loader, .here, exists_initialise.mp ⟨made, here⟩⟩
        · obtain ⟨state, turn, starts⟩ := ih.mp ⟨made, later, rfl⟩
          exact ⟨state, .later ran turn, starts⟩
      · rintro ⟨state, turn, starts⟩
        cases turn with
        | here =>
            obtain ⟨made, member⟩ := exists_initialise.mpr starts
            exact ⟨made, Traced.mem_events_bind.mpr (.inl member), mem_initialise member⟩
        | later ran turn =>
            obtain ⟨made, member, same⟩ := ih.mpr ⟨state, turn, starts⟩
            exact ⟨made, Traced.mem_events_bind.mpr (.inr ⟨_, ran, member⟩), same⟩

/-- The binary at index `source` lists the name of the one at index `target`, which
is the file name of the executable if that is the executable. -/
def Needs (mainPath : Path) (binaries : List ELFBinary) (names : List CString) (source target : Nat) : Prop :=
  Lists binaries names source target ∨
    target = 0 ∧ ∃ binary, binaries[source]? = some binary ∧ filename mainPath ∈ binary.neededs

/-- Whatever the initialisers do, they are called in order just if each binary that
has some comes in `binaries_` before those with some that it needs. -/
theorem run_inOrder_iff {host : Host} {memory : Memory} {steps : Nat} {mainPath : Path} {loaded : DynLoader}
    (libraries : (fresh memory).loadDependingLibs host steps mainPath = .ok loaded)
    (relocates : loaded.relocate host = .ok loader) :
    ∃ names, BreadthFirst host mainPath loaded names ∧
      ((∀ index, ¬ Relation.TransGen (Needs mainPath loaded.binaries names) index index) →
        ∀ (α : Type) (call : Address → DynLoader → Traced Stop α DynLoader) getauxval args envs rsp,
          InOrder (Relation.TransGen (Needs mainPath loaded.binaries names))
              (calls ((fresh memory).run host call getauxval args envs rsp steps mainPath).events) ↔
            ∀ source target, Relation.TransGen (Needs mainPath loaded.binaries names) source target →
              loader.Initialises call source → loader.Initialises call target → source < target) := by
  obtain ⟨names, breadthFirst⟩ := loadDependingLibs_completed libraries
  refine ⟨names, breadthFirst, ?_⟩
  intro acyclic α call getauxval args envs rsp
  have made (index : Nat) : (∃ made ∈ calls (runInitialisers call loader).events, made.binary = index) ↔
      loader.Initialises call index := by
    simp only [mem_calls]
    exact exists_initialiseDown
  rw [run_eq libraries relocates, execute_events, inOrder_iff calls_sorted acyclic]
  simp only [made]

/-- An executable and two libraries, each with a `DT_INIT`. -/
def initHost (main a b : List (BitVec 64)) : Host :=
  -- the strings are "a" and "b", at 2 and 4
  let file (needed : List (BitVec 64)) : List UInt8 :=
    Sample.Object.fileWith { data := [0], strings := [0x6200610000], needed } [12, 232]
  Sample.host [(ascii "m", file main), (ascii "a", file a), (ascii "b", file b)] fun _ => none

/-- Initialisers that do nothing. -/
def idle (_ : Address) (loader : DynLoader) : Traced Stop Unit DynLoader :=
  pure loader

theorem BreadthFirst.listed {host : Host} {mainPath : Path} {after : DynLoader} {names : List CString} {name : CString}
    {lists : List (List CString)} (breadthFirst : BreadthFirst host mainPath after names)
    (neededs : after.binaries.map ELFBinary.neededs = lists) (member : name ∈ names) :
    ∃ needed ∈ lists, name ∈ needed := by
  rw [← neededs]
  cases ((breadthFirst.exact name).mp member).1 with
  | root first listed => exact ⟨_, List.mem_map_of_mem (List.mem_of_getElem? first), listed⟩
  | library _ _ found listed => exact ⟨_, List.mem_map_of_mem (List.mem_of_getElem? found), listed⟩

/-- `Needs` as a test on the lists of needed names. -/
def needsIn (mainPath : Path) (lists : List (List CString)) (names : List CString) (source target : Nat) : Bool :=
  match lists[source]? with
  | none => false
  | some needed =>
      match target with
      | 0 => needed.contains (filename mainPath)
      | target + 1 =>
          match names[target]? with
          | none => false
          | some name => needed.contains name

theorem needs_iff {mainPath : Path} {binaries : List ELFBinary} {names : List CString} {source target : Nat} :
    Needs mainPath binaries names source target ↔
      needsIn mainPath (binaries.map ELFBinary.neededs) names source target = true := by
  simp only [Needs, Lists, needsIn, List.getElem?_map]
  cases binaries[source]? with
  | none => simp
  | some binary =>
      cases target with
      | zero => simp
      | succ target => cases named : names[target]? <;> simp [named]

theorem needsIn_bounds {mainPath : Path} {lists : List (List CString)} {names : List CString} {source target : Nat}
    (needs : needsIn mainPath lists names source target = true) :
    source < lists.length ∧ target < names.length + 1 := by
  unfold needsIn at needs
  split at needs
  · contradiction
  · rename_i needed found
    refine ⟨(List.getElem?_eq_some_iff.mp found).1, ?_⟩
    cases target with
    | zero => exact Nat.succ_pos _
    | succ target =>
        cases named : names[target]? with
        | none => simp [named] at needs
        | some name => exact Nat.succ_lt_succ (List.getElem?_eq_some_iff.mp named).1

/-- A measure that goes down along a relation shows that it has no cycle. -/
theorem transGen_descends {needs : Nat → Nat → Prop} (height : Nat → Nat)
    (descends : ∀ source target, needs source target → height target < height source) {source target : Nat}
    (path : Relation.TransGen needs source target) : height target < height source := by
  induction path with
  | single edge => exact descends _ _ edge
  | tail _ edge ih => exact Nat.lt_trans (descends _ _ edge) ih

/-- To be checked on the lists alone. -/
theorem needs_descends {mainPath : Path} {binaries : List ELFBinary} {names : List CString}
    {lists : List (List CString)} (neededs : binaries.map ELFBinary.neededs = lists) (height : Nat → Nat)
    (checked : ∀ source < lists.length, ∀ target < names.length + 1,
      needsIn mainPath lists names source target = true → height target < height source) {source target : Nat}
    (path : Relation.TransGen (Needs mainPath binaries names) source target) : height target < height source := by
  refine transGen_descends height ?_ path
  intro source target edge
  rw [needs_iff, neededs] at edge
  obtain ⟨inLists, inNames⟩ := needsIn_bounds edge
  exact checked source inLists target inNames edge

theorem chain_facts :
    (Sample.startup (initHost [2] [] []) (ascii "/bin/m")).toOption.map (fun loader => decide (
      loader.binaries.map ELFBinary.neededs = [[ascii "a"], []] ∧
      (calls (runInitialisers idle loader).events).map Call.binary = [1, 0])) = some true := by
  decide +kernel

/-- A library is initialised before the executable that needs it. -/
theorem run_inOrder_iff_chain :
    ∃ (loaded loader : DynLoader) (names : List CString),
      (fresh Sample.memory).loadDependingLibs (initHost [2] [] []) 12 (ascii "/bin/m") = .ok loaded ∧
      loaded.relocate (initHost [2] [] []) = .ok loader ∧ Needs (ascii "/bin/m") loaded.binaries names 0 1 ∧
      (calls (runInitialisers idle loader).events).map Call.binary = [1, 0] ∧
      ∀ getauxval args envs rsp, InOrder (Relation.TransGen (Needs (ascii "/bin/m") loaded.binaries names))
        (calls ((fresh Sample.memory).run (initHost [2] [] []) idle getauxval args envs rsp 12 (ascii "/bin/m")).events) := by
  obtain ⟨loader, started, checked⟩ := Option.map_eq_some_iff.mp chain_facts
  obtain ⟨neededs, order⟩ := of_decide_eq_true checked
  obtain ⟨loaded, libraries, relocates⟩ := bind_eq_ok.mp (eq_ok_of_toOption started)
  obtain ⟨names, breadthFirst, iff⟩ := run_inOrder_iff libraries relocates
  rw [relocate_binaries relocates] at neededs
  have count : loaded.binaries.length = 2 := by simpa using congrArg List.length neededs
  obtain ⟨name, rfl⟩ : ∃ name, names = [name] := by
    rw [← List.length_eq_one_iff]
    have aligned := breadthFirst.aligned
    omega
  obtain rfl : name = ascii "a" := by simpa using breadthFirst.listed neededs List.mem_cons_self
  have ascends {source target : Nat}
      (path : Relation.TransGen (Needs (ascii "/bin/m") loaded.binaries [ascii "a"]) source target) :
      1 - target < 1 - source :=
    needs_descends neededs (fun index => 1 - index) (by decide) path
  refine ⟨loaded, loader, [ascii "a"], libraries, relocates, ?_, order, ?_⟩
  · rw [needs_iff, neededs]
    decide
  · intro getauxval args envs rsp
    rw [iff fun index path => Nat.lt_irrefl _ (ascends path)]
    intro source target path _ _
    have less := ascends path
    omega

theorem sibling_facts :
    (Sample.startup (initHost [4, 2] [4] []) (ascii "/bin/m")).toOption.map (fun loader => decide (
      loader.binaries.map ELFBinary.neededs = [[ascii "b", ascii "a"], [], [ascii "b"]] ∧
      firstLister loader.binaries (ascii "a") = 0 ∧ firstLister loader.binaries (ascii "b") = 0 ∧
      listedAt loader.binaries (ascii "a") = 1 ∧ listedAt loader.binaries (ascii "b") = 0 ∧
      (calls (runInitialisers idle loader).events).map Call.binary = [2, 1, 0])) = some true := by
  decide +kernel

/-- The executable needs `b` and `a`, and `a` needs `b`, but `a` is initialised first. -/
theorem run_misorders :
    ∃ (loaded loader : DynLoader) (names : List CString),
      (fresh Sample.memory).loadDependingLibs (initHost [4, 2] [4] []) 12 (ascii "/bin/m") = .ok loaded ∧
      loaded.relocate (initHost [4, 2] [4] []) = .ok loader ∧
      BreadthFirst (initHost [4, 2] [4] []) (ascii "/bin/m") loaded names ∧ names = [ascii "b", ascii "a"] ∧
      (∀ index, ¬ Relation.TransGen (Needs (ascii "/bin/m") loaded.binaries names) index index) ∧
      Needs (ascii "/bin/m") loaded.binaries names 2 1 ∧
      ∀ getauxval args envs rsp, ∃ made,
        calls ((fresh Sample.memory).run (initHost [4, 2] [4] []) idle getauxval args envs rsp 12
          (ascii "/bin/m")).events = made ∧ made.map Call.binary = [2, 1, 0] ∧
        ¬ InOrder (Relation.TransGen (Needs (ascii "/bin/m") loaded.binaries names)) made := by
  obtain ⟨loader, started, checked⟩ := Option.map_eq_some_iff.mp sibling_facts
  obtain ⟨neededs, listerA, listerB, placeA, placeB, order⟩ := of_decide_eq_true checked
  obtain ⟨loaded, libraries, relocates⟩ := bind_eq_ok.mp (eq_ok_of_toOption started)
  obtain ⟨names, breadthFirst⟩ := loadDependingLibs_completed libraries
  rw [relocate_binaries relocates] at neededs listerA listerB placeA placeB
  have count : loaded.binaries.length = 3 := by simpa using congrArg List.length neededs
  obtain ⟨first, second, rfl⟩ : ∃ first second, names = [first, second] := by
    rw [← List.length_eq_two]
    have aligned := breadthFirst.aligned
    omega
  have either {name : CString} (member : name ∈ [first, second]) : name = ascii "b" ∨ name = ascii "a" := by
    obtain ⟨needed, inLists, listed⟩ := breadthFirst.listed neededs member
    have all : ∀ needed ∈ [[ascii "b", ascii "a"], [], [ascii "b"]], ∀ name ∈ needed,
        name = ascii "b" ∨ name = ascii "a" := by decide
    exact all needed inLists name listed
  -- both are listed by the executable, `b` first
  have ties := (List.pairwise_cons.mp breadthFirst.ties).1 second List.mem_cons_self
  obtain ⟨rfl, rfl⟩ : first = ascii "b" ∧ second = ascii "a" := by
    rcases either List.mem_cons_self with rfl | rfl
    · rcases either (List.mem_cons_of_mem _ List.mem_cons_self) with rfl | rfl
      · omega
      · exact ⟨rfl, rfl⟩
    · rcases either (List.mem_cons_of_mem _ List.mem_cons_self) with rfl | rfl <;> omega
  have edge : Needs (ascii "/bin/m") loaded.binaries [ascii "b", ascii "a"] 2 1 := by
    rw [needs_iff, neededs]
    decide
  refine ⟨loaded, loader, _, libraries, relocates, breadthFirst, rfl, ?_, edge, ?_⟩
  · intro index path
    exact Nat.lt_irrefl _ (needs_descends neededs (fun index => [2, 0, 1].getD index 0) (by decide) path)
  · intro getauxval args envs rsp
    rw [run_eq libraries relocates, execute_events]
    refine ⟨_, rfl, order, ?_⟩
    intro inOrder
    have binaries : ((calls (runInitialisers idle loader).events).map Call.binary).Pairwise fun earlier later =>
        ¬ Relation.TransGen (Needs (ascii "/bin/m") loaded.binaries [ascii "b", ascii "a"]) earlier later :=
      List.pairwise_map.mpr (inOrder.imp And.left)
    rw [order] at binaries
    exact (List.pairwise_cons.mp binaries).1 1 List.mem_cons_self (.single edge)

end DynLoader

end Sloader
