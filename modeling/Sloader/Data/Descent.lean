import Mathlib.Data.Set.Finite.List
import Mathlib.Order.Filter.AtTopBot.Basic
import Mathlib.Order.Filter.Finite
import Sloader.Data.Outcome

namespace Sloader.Data

/-! Recursive descents that gather values.

Visiting a node yields values and further nodes to visit, in some order, and no
account is kept of the nodes that have been visited.  Two limits stop nested calls:
one more than the first fails, and one more than the second returns at once.  Where
the root reaches finitely many nodes, such a descent gathers everything under all
large limits exactly if none of the nodes leads back to itself. -/

variable {ε α β : Type} {visit : α → List (β ⊕ α)} {exhausted : ε} {root node other : α} {depth width length : Nat}
  {value : β} {values : List β}

def descend (visit : α → List (β ⊕ α)) (exhausted : ε) : Nat → Nat → List β → α → Except ε (List β)
  | 0, _, _, _ => .error exhausted
  | _ + 1, 0, res, _ => .ok res
  | depth + 1, width + 1, res, node =>
      (visit node).foldlM (fun res item =>
        match item with
        | .inl value => .ok (res ++ [value])
        | .inr child => descend visit exhausted depth width res child) res

theorem foldlM_flatMap {σ τ ι : Type} {items : List τ} {parts : τ → List ι} {step : σ → ι → Except ε σ} {state : σ} :
    (items.flatMap parts).foldlM step state = items.foldlM (fun state item => (parts item).foldlM step state) state := by
  induction items generalizing state with
  | nil => rfl
  | cons item rest ih =>
      rw [List.flatMap_cons, List.foldlM_append, List.foldlM_cons]
      congr 1
      funext next
      exact ih

def Leads (visit : α → List (β ⊕ α)) (parent child : α) : Prop :=
  .inr child ∈ visit parent

def Reaches (visit : α → List (β ⊕ α)) : α → α → Prop :=
  Relation.ReflTransGen (Leads visit)

/-- No node that the root reaches leads back to itself. -/
def Acyclic (visit : α → List (β ⊕ α)) (root : α) : Prop :=
  ∀ node, Reaches visit root node → ¬ Relation.TransGen (Leads visit) node node

/-- Whatever has been gathered before, the action adds values with the property
to it, and all of them. -/
def Gathers (action : List β → Except ε (List β)) (Holds : β → Prop) : Prop :=
  ∃ values, (∀ res, action res = .ok (res ++ values)) ∧ ∀ value, value ∈ values ↔ Holds value

theorem Gathers.foldlM {step : List β → α → Except ε (List β)} {Holds : α → β → Prop} {items : List α}
    (each : ∀ item ∈ items, Gathers (step · item) (Holds item)) :
    Gathers (items.foldlM step) fun value => ∃ item ∈ items, Holds item value := by
  induction items with
  | nil => exact ⟨[], fun res => by rw [List.append_nil]; rfl, by simp⟩
  | cons item rest ih =>
      obtain ⟨here, first, holdsHere⟩ := each item List.mem_cons_self
      obtain ⟨later, remaining, holdsLater⟩ := ih fun other member => each other (List.mem_cons_of_mem item member)
      refine ⟨here ++ later, fun res => ?_, fun value => ?_⟩
      · change (step res item >>= rest.foldlM step) = _
        have ran : step res item = .ok (res ++ here) := first res
        rw [ran, ← List.append_assoc]
        exact remaining (res ++ here)
      · rw [List.mem_append, holdsHere, holdsLater]
        exact (List.exists_mem_cons_iff (Holds · value) item rest).symm

theorem Gathers.congr {action : List β → Except ε (List β)} {Holds Other : β → Prop} (gathers : Gathers action Holds)
    (same : ∀ value, Holds value ↔ Other value) : Gathers action Other := by
  obtain ⟨values, ran, holds⟩ := gathers
  exact ⟨values, ran, fun value => (holds value).trans (same value)⟩

/-- The first node leads to the second in this many steps. -/
def StepsTo (leads : α → α → Prop) : Nat → α → α → Prop
  | 0, node, other => node = other
  | length + 1, node, other => ∃ child, leads node child ∧ StepsTo leads length child other

theorem reaches_iff_stepsTo : Reaches visit node other ↔ ∃ length, StepsTo (Leads visit) length node other := by
  constructor
  · intro reaches
    induction reaches using Relation.ReflTransGen.head_induction_on with
    | refl => exact ⟨0, rfl⟩
    | head leads _ ih =>
        obtain ⟨length, walk⟩ := ih
        exact ⟨length + 1, _, leads, walk⟩
  · intro walks
    obtain ⟨length, walk⟩ := walks
    induction length generalizing node with
    | zero => exact walk ▸ .refl
    | succ length ih =>
        obtain ⟨child, leads, rest⟩ := walk
        exact .head leads (ih rest)

/-- A value that some node reached from this one yields. -/
def Yields (visit : α → List (β ⊕ α)) (node : α) (value : β) : Prop :=
  ∃ other, Reaches visit node other ∧ .inl value ∈ visit other

/-- A value that some node yields to which fewer steps lead. -/
def YieldsWithin (visit : α → List (β ⊕ α)) (width : Nat) (node : α) (value : β) : Prop :=
  ∃ length < width, ∃ other, StepsTo (Leads visit) length node other ∧ .inl value ∈ visit other

theorem yieldsWithin_succ :
    YieldsWithin visit (width + 1) node value ↔
      .inl value ∈ visit node ∨ ∃ child, Leads visit node child ∧ YieldsWithin visit width child value := by
  constructor
  · intro yields
    obtain ⟨length, short, other, walk, member⟩ := yields
    cases length with
    | zero => exact .inl (walk ▸ member)
    | succ length =>
        obtain ⟨child, leads, rest⟩ := walk
        exact .inr ⟨child, leads, length, Nat.lt_of_succ_lt_succ short, other, rest, member⟩
  · intro either
    cases either with
    | inl member => exact ⟨0, Nat.succ_pos width, node, rfl, member⟩
    | inr through =>
        obtain ⟨child, leads, length, short, other, walk, member⟩ := through
        exact ⟨length + 1, Nat.succ_lt_succ short, other, ⟨child, leads, walk⟩, member⟩

/-- Either the second limit stops the calls before the first, or no calls are
nested as deep as the first. -/
def HasRoom (visit : α → List (β ⊕ α)) (depth width : Nat) (node : α) : Prop :=
  width < depth ∨ ∀ other, ¬ StepsTo (Leads visit) depth node other

theorem HasRoom.child (room : HasRoom visit (depth + 1) (width + 1) node) {child : α}
    (leads : Leads visit node child) : HasRoom visit depth width child := by
  cases room with
  | inl narrow => exact .inl (Nat.lt_of_succ_lt_succ narrow)
  | inr shallow => exact .inr fun other walk => shallow other ⟨child, leads, walk⟩

theorem descend_step (children : ∀ child, Leads visit node child →
      Gathers (descend visit exhausted depth width · child) (YieldsWithin visit width child)) :
    Gathers (descend visit exhausted (depth + 1) (width + 1) · node) (YieldsWithin visit (width + 1) node) := by
  have loop : Gathers (descend visit exhausted (depth + 1) (width + 1) · node) fun value => ∃ item ∈ visit node,
      match item with
      | .inl own => own = value
      | .inr child => YieldsWithin visit width child value := by
    apply Gathers.foldlM
    intro item member
    cases item with
    | inl own => exact ⟨[own], fun _ => rfl, by simp [eq_comm]⟩
    | inr child => exact children child member
  refine loop.congr fun value => ?_
  rw [yieldsWithin_succ]
  simp [Leads]

theorem descend_gathers (exhausted : ε) (room : HasRoom visit depth width node) :
    Gathers (descend visit exhausted depth width · node) (YieldsWithin visit width node) := by
  induction depth generalizing width node with
  | zero =>
      cases room with
      | inl narrow => contradiction
      | inr shallow => exact absurd rfl (shallow node)
  | succ depth ih =>
      cases width with
      | zero => exact ⟨[], fun res => by rw [List.append_nil]; rfl, by simp [YieldsWithin]⟩
      | succ width => exact descend_step fun child leads => ih (room.child leads)

theorem foldlM_mem {σ τ : Type} {step : σ → τ → Except ε σ} {items : List τ} {item : τ} {before after : σ}
    (member : item ∈ items) (ran : items.foldlM step before = .ok after) :
    ∃ state next, step state item = .ok next := by
  induction items generalizing before with
  | nil => exact absurd member List.not_mem_nil
  | cons head rest ih =>
      rw [List.foldlM_cons, bind_eq_ok] at ran
      obtain ⟨middle, first, remaining⟩ := ran
      cases List.mem_cons.mp member with
      | inl same =>
          cases same
          exact ⟨before, middle, first⟩
      | inr inRest => exact ih inRest remaining

theorem descend_exhausts (wide : depth ≤ width) (walk : StepsTo (Leads visit) depth node other) (res values : List β) :
    descend visit exhausted depth width res node ≠ .ok values := by
  induction depth generalizing width node res values with
  | zero =>
      intro ran
      contradiction
  | succ depth ih =>
      intro ran
      obtain ⟨child, leads, rest⟩ := walk
      obtain ⟨less, rfl⟩ : ∃ less, width = less + 1 := ⟨width - 1, by omega⟩
      obtain ⟨state, next, called⟩ := foldlM_mem leads ran
      exact ih (Nat.le_of_succ_le_succ wide) rest state next called

theorem hasRoom_of_descend {res : List β} (ran : descend visit exhausted depth width res node = .ok values) :
    HasRoom visit depth width node := by
  rcases Nat.lt_or_ge width depth with narrow | wide
  · exact .inl narrow
  · exact .inr fun other walk => descend_exhausts wide walk res values ran

/-- The descent returns if it has room for its calls, with what the nodes yield to
which fewer steps lead than the second limit. -/
theorem descend_returns_iff :
    (∃ values, descend visit exhausted depth width [] root = .ok values ∧
        ∀ value, Yields visit root value → value ∈ values) ↔
      HasRoom visit depth width root ∧ ∀ value, Yields visit root value → YieldsWithin visit width root value := by
  constructor
  · intro returns
    obtain ⟨values, ran, complete⟩ := returns
    have room := hasRoom_of_descend ran
    obtain ⟨gathered, always, within⟩ := descend_gathers exhausted room
    have same := always []
    simp only [ran, List.nil_append, Except.ok.injEq] at same
    subst same
    exact ⟨room, fun value yields => (within value).mp (complete value yields)⟩
  · intro limits
    obtain ⟨room, near⟩ := limits
    obtain ⟨values, ran, within⟩ := descend_gathers exhausted room
    exact ⟨values, ran [], fun value yields => (within value).mpr (near value yields)⟩

theorem acc_of_acyclic (finite : {node | Reaches visit root node}.Finite) (acyclic : Acyclic visit root)
    (reached : Reaches visit root node) : Acc (fun child parent => Leads visit parent child) node := by
  let Reached := {node // Reaches visit root node}
  let below (left right : Reached) : Prop := Relation.TransGen (Leads visit) right.1 left.1
  have : Finite Reached := finite.to_subtype
  have : IsTrans Reached below := ⟨fun _ _ _ left right => right.trans left⟩
  have : Std.Irrefl below := ⟨fun inner cycle => acyclic inner.1 inner.2 cycle⟩
  have wellFounded : WellFounded below := Finite.wellFounded_of_trans_of_irrefl below
  have all (start : Reached) : Acc (fun child parent => Leads visit parent child) start.1 := by
    induction start using wellFounded.induction with
    | _ start ih =>
        refine ⟨start.1, fun child leads => ?_⟩
        exact ih ⟨child, start.2.tail leads⟩ (.single leads)
  exact all ⟨node, reached⟩

theorem walks_bounded (ends : Acc (fun child parent => Leads visit parent child) node) :
    ∀ᶠ length in Filter.atTop, ∀ other, ¬ StepsTo (Leads visit) length node other := by
  induction ends with
  | intro node _ ih =>
      -- there are finitely many children, so that one bound is enough for all
      have finite : {child | Leads visit node child}.Finite :=
        ((visit node).finite_toSet.preimage Sum.inr_injective.injOn)
      obtain ⟨bound, children⟩ := Filter.eventually_atTop.mp ((Filter.eventually_all_finite finite).mpr ih)
      refine Filter.eventually_atTop.mpr ⟨bound + 1, fun length large other walk => ?_⟩
      obtain ⟨less, rfl⟩ : ∃ less, length = less + 1 := ⟨length - 1, by omega⟩
      obtain ⟨child, leads, rest⟩ := walk
      exact children less (by omega) child leads other rest

/-- The node leads to a cycle. -/
def Endless (visit : α → List (β ⊕ α)) (node : α) : Prop :=
  ∃ other, Reaches visit node other ∧ Relation.TransGen (Leads visit) other other

theorem Endless.next (endless : Endless visit node) : ∃ child, Leads visit node child ∧ Endless visit child := by
  obtain ⟨other, reaches, cycle⟩ := endless
  rcases Relation.ReflTransGen.cases_head reaches with rfl | ⟨child, leads, rest⟩
  · obtain ⟨child, leads, back⟩ := Relation.TransGen.head'_iff.mp cycle
    exact ⟨child, leads, node, back, cycle⟩
  · exact ⟨child, leads, other, rest, cycle⟩

theorem Endless.walk (endless : Endless visit node) (length : Nat) :
    ∃ other, StepsTo (Leads visit) length node other := by
  induction length generalizing node with
  | zero => exact ⟨node, rfl⟩
  | succ length ih =>
      obtain ⟨child, leads, again⟩ := endless.next
      obtain ⟨other, rest⟩ := ih again
      exact ⟨other, child, leads, rest⟩

/-- Under all large limits the descent gathers everything, exactly if it comes to no
cycle. -/
theorem descend_complete_iff (exhausted : ε) (finite : {node | Reaches visit root node}.Finite) :
    (∃ limit, ∀ depth ≥ limit, ∀ width ≥ limit, ∃ values, descend visit exhausted depth width [] root = .ok values ∧
        ∀ value, Yields visit root value → value ∈ values) ↔ Acyclic visit root := by
  constructor
  · intro complete node reaches cycle
    obtain ⟨limit, ran⟩ := complete
    obtain ⟨values, returned, _⟩ := ran limit (Nat.le_refl limit) limit (Nat.le_refl limit)
    have endless : Endless visit root := ⟨node, reaches, cycle⟩
    obtain ⟨other, walk⟩ := endless.walk limit
    exact descend_exhausts (Nat.le_refl limit) walk [] values returned
  · intro acyclic
    obtain ⟨limit, bounded⟩ := Filter.eventually_atTop.mp (walks_bounded (acc_of_acyclic finite acyclic .refl))
    refine ⟨limit, fun depth deep width wide => ?_⟩
    apply descend_returns_iff.mpr
    refine ⟨.inr (bounded depth deep), fun value yields => ?_⟩
    obtain ⟨other, reaches, member⟩ := yields
    obtain ⟨length, walk⟩ := reaches_iff_stepsTo.mp reaches
    have short : length < limit := by
      by_contra long
      exact bounded length (Nat.le_of_not_lt long) other walk
    exact ⟨length, Nat.lt_of_lt_of_le short wide, other, walk, member⟩

end Sloader.Data
