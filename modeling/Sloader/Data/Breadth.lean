import Mathlib.Data.List.Basic
import Mathlib.Data.List.Infix
import Mathlib.Order.Lattice.Nat

namespace Sloader.Data

/-! Breadth-first exploration with a queue.

Every node offers items, and an item becomes a node the first time its key
leaves the queue, unless the key is a leaf.  The nodes that are reached, their
order and their distance from the start all follow from one equation: the items
taken are the first offers, in order, of the nodes reached (`Explored.taken`).
-/

variable {κ ι ν : Type} [DecidableEq κ]

section FirstOffers

variable (key : ι → κ) (leaf : κ → Bool)

/-- The items whose key is new when they are met, leaves left out. -/
def firstOffers : List κ → List ι → List ι
  | _, [] => []
  | seen, item :: rest =>
      if key item ∈ seen then firstOffers seen rest
      else if leaf (key item) then firstOffers (key item :: seen) rest
      else item :: firstOffers (key item :: seen) rest

variable {key leaf} {seen : List κ} {items : List ι} {item : ι}

theorem firstOffers_append_singleton :
    firstOffers key leaf seen (items ++ [item]) =
      firstOffers key leaf seen items ++
        if key item ∈ seen ∨ key item ∈ items.map key ∨ leaf (key item) = true then [] else [item] := by
  induction items generalizing seen with
  | nil =>
      simp only [List.nil_append, firstOffers, List.map_nil, List.not_mem_nil, false_or]
      by_cases known : key item ∈ seen
      · simp [known]
      · by_cases isLeaf : leaf (key item) = true <;> simp [known, isLeaf]
  | cons head rest ih =>
      simp only [List.cons_append, firstOffers, ih, List.map_cons, List.mem_cons]
      by_cases known : key head ∈ seen
      · have absorbed : key item = key head → key item ∈ seen := fun same => same ▸ known
        simp only [known, if_true]
        congr 2
        exact propext ⟨by tauto, by tauto⟩
      · by_cases isLeaf : leaf (key head) = true
        · simp only [known, isLeaf, if_true, if_false]
          congr 2
          exact propext ⟨by tauto, by tauto⟩
        · simp only [known, Bool.eq_false_iff.mpr isLeaf, Bool.false_eq_true, if_false, List.cons_append]
          congr 3
          exact propext ⟨by tauto, by tauto⟩

theorem mem_firstOffers (member : item ∈ firstOffers key leaf seen items) :
    item ∈ items ∧ key item ∉ seen ∧ leaf (key item) = false := by
  induction items generalizing seen with
  | nil => simp [firstOffers] at member
  | cons head rest ih =>
      simp only [firstOffers] at member
      split at member
      · obtain ⟨inRest, fresh, inner⟩ := ih member
        exact ⟨List.mem_cons_of_mem head inRest, fresh, inner⟩
      · split at member
        · obtain ⟨inRest, fresh, inner⟩ := ih member
          exact ⟨List.mem_cons_of_mem head inRest, fun known => fresh (List.mem_cons_of_mem _ known), inner⟩
        · rename_i unknown notLeaf
          rcases List.mem_cons.mp member with same | later
          · subst same
            exact ⟨List.mem_cons_self, unknown, by simpa using notLeaf⟩
          · obtain ⟨inRest, fresh, inner⟩ := ih later
            exact ⟨List.mem_cons_of_mem head inRest, fun known => fresh (List.mem_cons_of_mem _ known), inner⟩

theorem key_mem_firstOffers {value : κ} (offered : value ∈ items.map key)
    (fresh : value ∉ seen) (inner : leaf value = false) :
    value ∈ (firstOffers key leaf seen items).map key := by
  induction items generalizing seen with
  | nil => simp at offered
  | cons head rest ih =>
      simp only [firstOffers]
      by_cases same : value = key head
      · subst same
        simp [fresh, inner]
      · have inRest : value ∈ rest.map key := by simpa [same] using offered
        have stillFresh : value ∉ key head :: seen := by simp [same, fresh]
        split
        · exact ih inRest fresh
        · split
          · exact ih inRest stillFresh
          · exact List.mem_cons_of_mem _ (ih inRest stillFresh)

theorem firstOffers_find (member : item ∈ firstOffers key leaf seen items) :
    items.find? (fun other => key other = key item) = some item := by
  induction items generalizing seen with
  | nil => simp [firstOffers] at member
  | cons head rest ih =>
      have fresh := (mem_firstOffers member).2.1
      simp only [firstOffers] at member
      split at member
      · rename_i known
        have different : key head ≠ key item := fun same => fresh (same ▸ known)
        simpa [different] using ih member
      · split at member
        · have different : key head ≠ key item := fun same =>
            (mem_firstOffers member).2.1 (same ▸ List.mem_cons_self)
          simpa [different] using ih member
        · rcases List.mem_cons.mp member with same | later
          · subst same
            simp
          · have different : key head ≠ key item := fun same =>
              (mem_firstOffers later).2.1 (same ▸ List.mem_cons_self)
            simpa [different] using ih later

theorem firstOffers_pairwise :
    (firstOffers key leaf seen items).Pairwise fun earlier later =>
      items.findIdx (fun other => key other = key earlier) <
        items.findIdx (fun other => key other = key later) := by
  induction items generalizing seen with
  | nil => simp [firstOffers]
  | cons head rest ih =>
      -- Past a head whose key is not theirs, the positions of both items move by one.
      have shifted {known : List κ} (different : ∀ item ∈ firstOffers key leaf known rest, key head ≠ key item) :
          (firstOffers key leaf known rest).Pairwise fun earlier later =>
            (head :: rest).findIdx (fun other => key other = key earlier) <
              (head :: rest).findIdx (fun other => key other = key later) := by
        refine ih.imp_of_mem ?_
        intro earlier later earlierMember laterMember before
        simpa [List.findIdx_cons, different earlier earlierMember, different later laterMember] using before
      simp only [firstOffers]
      split
      · rename_i known
        exact shifted fun item member same => (mem_firstOffers member).2.1 (same ▸ known)
      · have different : ∀ item ∈ firstOffers key leaf (key head :: seen) rest, key head ≠ key item :=
          fun item member same => (mem_firstOffers member).2.1 (same ▸ List.mem_cons_self)
        split
        · exact shifted different
        · refine List.pairwise_cons.mpr ⟨?_, shifted different⟩
          intro later member
          simp [List.findIdx_cons, different later member]

end FirstOffers

/-- The state of an exploration: `nodes` have been reached, all but the first
through the items `taken`; the offers of the nodes have left the queue up to
what `queue` still holds. -/
structure Explored (key : ι → κ) (leaf : κ → Bool) (offers : ν → List ι) (known : List κ)
    (nodes : List ν) (taken : List ι) (seen : List κ) (queue : List ι) : Prop where
  aligned : nodes.length = taken.length + 1
  progress : ∃ consumed, nodes.flatMap offers = consumed ++ queue ∧
    taken = firstOffers key leaf known consumed ∧
    ∀ value, value ∈ seen ↔ value ∈ known ∨ value ∈ consumed.map key
  grounded : ∀ index item, taken[index]? = some item →
    item ∈ (nodes.take (index + 1)).flatMap offers

namespace Explored

variable {key : ι → κ} {leaf : κ → Bool} {offers : ν → List ι} {known seen : List κ}
  {nodes : List ν} {taken queue : List ι} {item : ι} {node : ν}

theorem start (same : ∀ value, value ∈ seen ↔ value ∈ known) :
    Explored key leaf offers known [node] [] seen (offers node) where
  aligned := rfl
  progress := ⟨[], by simp, rfl, by simpa using same⟩
  grounded := by simp

theorem drop (explored : Explored key leaf offers known nodes taken seen (item :: queue))
    (skip : key item ∈ seen ∨ leaf (key item) = true) {after : List κ}
    (marked : ∀ value, value ∈ after ↔ value = key item ∨ value ∈ seen) :
    Explored key leaf offers known nodes taken after queue := by
  obtain ⟨aligned, ⟨consumed, split, taken_eq, seen_iff⟩, grounded⟩ := explored
  refine ⟨aligned, ⟨consumed ++ [item], by simpa using split, ?_, ?_⟩, grounded⟩
  · have nothing : key item ∈ known ∨ key item ∈ consumed.map key ∨ leaf (key item) = true := by
      rcases skip with inSeen | isLeaf
      · rcases (seen_iff _).mp inSeen with inKnown | inConsumed
        · exact .inl inKnown
        · exact .inr (.inl inConsumed)
      · exact .inr (.inr isLeaf)
    rw [firstOffers_append_singleton, if_pos nothing, List.append_nil, taken_eq]
  · intro value
    rw [marked, seen_iff, List.map_append, List.mem_append]
    simp only [List.map_cons, List.map_nil, List.mem_singleton]
    tauto

theorem take (explored : Explored key leaf offers known nodes taken seen (item :: queue))
    (fresh : key item ∉ seen) (inner : leaf (key item) = false) {after : List κ}
    (marked : ∀ value, value ∈ after ↔ value = key item ∨ value ∈ seen) :
    Explored key leaf offers known (nodes ++ [node]) (taken ++ [item]) after (queue ++ offers node) := by
  obtain ⟨aligned, ⟨consumed, split, taken_eq, seen_iff⟩, grounded⟩ := explored
  refine ⟨by simp [aligned], ⟨consumed ++ [item], by simp [split], ?_, ?_⟩, ?_⟩
  · have something : ¬ (key item ∈ known ∨ key item ∈ consumed.map key ∨ leaf (key item) = true) := by
      rw [← or_assoc, ← seen_iff]
      simp [fresh, inner]
    rw [firstOffers_append_singleton, if_neg something, taken_eq]
  · intro value
    rw [marked, seen_iff, List.map_append, List.mem_append]
    simp only [List.map_cons, List.map_nil, List.mem_singleton]
    tauto
  · intro index other found
    by_cases inside : index < taken.length
    · rw [List.getElem?_append_left inside] at found
      rw [List.take_append_of_le_length (by omega)]
      exact grounded index other found
    · have last : index = taken.length := by
        have bound := (List.getElem?_eq_some_iff.mp found).1
        simp only [List.length_append, List.length_singleton] at bound
        omega
      subst last
      have same : item = other := by simpa using found
      subst same
      rw [List.take_append_of_le_length (by omega), List.take_of_length_le (by omega), split]
      simp

end Explored

/-- The first list with an element of the kind, and its position there. -/
def spot (lists : List (List ι)) (kind : ι → Bool) : Nat × Nat :=
  (lists.findIdx (·.any kind), (lists.getD (lists.findIdx (·.any kind)) []).findIdx kind)

theorem spot_cons_here {head : List ι} {rest : List (List ι)} {kind : ι → Bool}
    (here : head.any kind = true) : spot (head :: rest) kind = (0, head.findIdx kind) := by
  simp [spot, List.findIdx_cons, here]

theorem spot_cons_later {head : List ι} {rest : List (List ι)} {kind : ι → Bool}
    (later : head.any kind = false) :
    spot (head :: rest) kind = ((spot rest kind).1 + 1, (spot rest kind).2) := by
  simp [spot, List.findIdx_cons, later]

theorem findIdx_flatten_here {head : List ι} {rest : List (List ι)} {kind : ι → Bool}
    (here : head.any kind = true) :
    (head :: rest).flatten.findIdx kind = head.findIdx kind ∧ head.findIdx kind < head.length := by
  have inside : head.findIdx kind < head.length := by
    obtain ⟨item, member, isKind⟩ := List.any_eq_true.mp here
    exact List.findIdx_lt_length.mpr ⟨item, member, isKind⟩
  refine ⟨?_, inside⟩
  rw [List.flatten_cons, List.findIdx_append, if_pos inside]

theorem findIdx_flatten_later {head : List ι} {rest : List (List ι)} {kind : ι → Bool}
    (later : head.any kind = false) :
    (head :: rest).flatten.findIdx kind = rest.flatten.findIdx kind + head.length := by
  have outside : ¬ head.findIdx kind < head.length := by
    intro inside
    obtain ⟨item, member, isKind⟩ := List.findIdx_lt_length.mp inside
    have found : head.any kind = true := List.any_eq_true.mpr ⟨item, member, isKind⟩
    rw [later] at found
    contradiction
  rw [List.flatten_cons, List.findIdx_append, if_neg outside]

/-- The order of first positions in the concatenation is the order by list
first and by position in the list second. -/
theorem spot_lt_of_findIdx_lt {lists : List (List ι)} {first second : ι → Bool}
    (before : lists.flatten.findIdx first < lists.flatten.findIdx second) :
    (spot lists first).1 < (spot lists second).1 ∨
      (spot lists first).1 = (spot lists second).1 ∧ (spot lists first).2 < (spot lists second).2 := by
  induction lists with
  | nil => simp at before
  | cons head rest ih =>
      cases firstHere : head.any first with
      | true =>
          cases secondHere : head.any second with
          | true =>
              rw [spot_cons_here firstHere, spot_cons_here secondHere]
              rw [(findIdx_flatten_here firstHere).1, (findIdx_flatten_here secondHere).1] at before
              exact .inr ⟨rfl, before⟩
          | false =>
              rw [spot_cons_here firstHere, spot_cons_later secondHere]
              exact .inl (Nat.succ_pos _)
      | false =>
          cases secondHere : head.any second with
          | true =>
              obtain ⟨position, inside⟩ := @findIdx_flatten_here _ head rest second secondHere
              rw [findIdx_flatten_later firstHere, position] at before
              omega
          | false =>
              rw [spot_cons_later firstHere, spot_cons_later secondHere]
              rw [findIdx_flatten_later firstHere, findIdx_flatten_later secondHere] at before
              rcases ih (by omega) with earlier | ⟨same, earlier⟩
              · exact .inl (by simpa using earlier)
              · exact .inr ⟨by simpa using same, earlier⟩

theorem spot_find {lists : List (List ι)} {kind : ι → Bool} {item : ι}
    (found : lists.flatten.find? kind = some item) :
    ∃ list, lists[(spot lists kind).1]? = some list ∧ item ∈ list := by
  induction lists with
  | nil => simp at found
  | cons head rest ih =>
      rw [List.flatten_cons, List.find?_append] at found
      cases here : head.any kind with
      | true =>
          rw [spot_cons_here here]
          cases inHead : head.find? kind with
          | none =>
              obtain ⟨other, member, isKind⟩ := List.any_eq_true.mp here
              exact absurd isKind (List.find?_eq_none.mp inHead other member)
          | some other =>
              have same : other = item := by simpa [inHead] using found
              exact ⟨head, rfl, same ▸ List.mem_of_find?_eq_some inHead⟩
      | false =>
          have notHere : head.find? kind = none := by
            rw [List.find?_eq_none]
            intro other member isKind
            exact Bool.false_ne_true (here.symm.trans (List.any_eq_true.mpr ⟨other, member, isKind⟩))
          obtain ⟨list, isList, member⟩ := ih (by simpa [notHere] using found)
          rw [spot_cons_later here]
          exact ⟨list, isList, member⟩

inductive Walk (edge : Nat → Nat → Prop) : Nat → Nat → Prop where
  | start : Walk edge 0 0
  | step {length source target : Nat} (walk : Walk edge length source) (next : edge source target) :
      Walk edge (length + 1) target

noncomputable def distance (edge : Nat → Nat → Prop) (node : Nat) : Nat :=
  sInf { length | Walk edge length node }

/-- Every node but the first has a first parent, before it and before its other
parents, and the first parents come in the order of their children. -/
structure FirstParents (edge : Nat → Nat → Prop) (count : Nat) (parent : Nat → Nat) : Prop where
  bounded : ∀ {source target}, edge source target → 0 < target ∧ target < count
  before : ∀ {node}, 0 < node → node < count → parent node < node
  child : ∀ {node}, 0 < node → node < count → edge (parent node) node
  first : ∀ {source target}, edge source target → parent target ≤ source
  monotone : ∀ {left right}, 0 < left → left ≤ right → right < count → parent left ≤ parent right

namespace FirstParents

variable {edge : Nat → Nat → Prop} {count : Nat} {parent : Nat → Nat}

theorem walk_exists (parents : FirstParents edge count parent) (node : Nat) (bound : node < count) :
    ∃ length, Walk edge length node := by
  induction node using Nat.strong_induction_on with
  | _ node ih =>
      rcases Nat.eq_zero_or_pos node with rfl | positive
      · exact ⟨0, .start⟩
      · have before := parents.before positive bound
        obtain ⟨length, walk⟩ := ih (parent node) before (Nat.lt_trans before bound)
        exact ⟨length + 1, walk.step (parents.child positive bound)⟩

/-- A walk to a node gives a walk, no longer, to every node before it.  The
induction is on the walk: its last edge leaves from behind the first parent of
the earlier node. -/
theorem walk_earlier (parents : FirstParents edge count parent) {length left right : Nat}
    (walk : Walk edge length right) (earlier : left ≤ right) :
    ∃ shorter ≤ length, Walk edge shorter left := by
  induction walk generalizing left with
  | start =>
      obtain rfl : left = 0 := by omega
      exact ⟨0, Nat.le_refl 0, .start⟩
  | @step length source target walk next ih =>
      rcases Nat.eq_zero_or_pos left with rfl | positive
      · exact ⟨0, Nat.zero_le _, .start⟩
      · have bound := (parents.bounded next).2
        have behind : parent left ≤ source :=
          Nat.le_trans (parents.monotone positive earlier bound) (parents.first next)
        obtain ⟨shorter, short, reach⟩ := ih behind
        exact ⟨shorter + 1, Nat.succ_le_succ short, reach.step (parents.child positive (by omega))⟩

theorem distance_monotone (parents : FirstParents edge count parent) {left right : Nat}
    (earlier : left ≤ right) (bound : right < count) :
    distance edge left ≤ distance edge right := by
  have shortest : Walk edge (distance edge right) right := Nat.sInf_mem (parents.walk_exists right bound)
  obtain ⟨shorter, short, walk⟩ := parents.walk_earlier shortest earlier
  exact Nat.le_trans (Nat.sInf_le walk) short

end FirstParents

namespace Explored

variable (key : ι → κ) (offers : ν → List ι) (nodes : List ν) (taken : List ι)

/-- Node `source` offers the key that node `target` was taken for. -/
def Offers (source target : Nat) : Prop :=
  ∃ node item, nodes[source]? = some node ∧ 0 < target ∧ taken[target - 1]? = some item ∧
    key item ∈ (offers node).map key

def firstSpot (value : κ) : Nat × Nat :=
  spot (nodes.map offers) fun other => key other = value

def parent (node : Nat) : Nat :=
  match taken[node - 1]? with
  | some item => (firstSpot key offers nodes (key item)).1
  | none => 0

variable {key offers nodes taken} {leaf : κ → Bool} {known seen : List κ}

theorem firstSpot_eq (value : κ) :
    (firstSpot key offers nodes value).1 = nodes.findIdx fun node => value ∈ (offers node).map key := by
  simp only [firstSpot, spot, List.findIdx_map]
  congr 1
  funext node
  rw [Bool.eq_iff_iff]
  simp only [Function.comp_apply, List.any_eq_true, decide_eq_true_eq, List.mem_map]

theorem firstSpot_le {value : κ} {source : Nat} {node : ν} (found : nodes[source]? = some node)
    (offered : value ∈ (offers node).map key) : (firstSpot key offers nodes value).1 ≤ source := by
  rw [firstSpot_eq]
  by_contra later
  obtain ⟨bound, here⟩ := List.getElem?_eq_some_iff.mp found
  have absent := List.not_of_lt_findIdx (Nat.lt_of_not_le later)
  rw [here] at absent
  simp only [offered, decide_true, Bool.true_eq_false] at absent

theorem firstSpot_offers {value : κ} (offered : value ∈ (nodes.flatMap offers).map key) :
    ∃ node, nodes[(firstSpot key offers nodes value).1]? = some node ∧ value ∈ (offers node).map key := by
  rw [firstSpot_eq]
  obtain ⟨item, member, rfl⟩ := List.mem_map.mp offered
  obtain ⟨node, isNode, inNode⟩ := List.mem_flatMap.mp member
  have within : nodes.findIdx (fun node => key item ∈ (offers node).map key) < nodes.length :=
    List.findIdx_lt_length.mpr ⟨node, isNode, decide_eq_true (List.mem_map_of_mem inNode)⟩
  refine ⟨nodes[_], List.getElem?_eq_getElem within, ?_⟩
  simpa using List.findIdx_getElem (w := within)

variable (explored : Explored key leaf offers known nodes taken seen [])
include explored

theorem taken_eq : taken = firstOffers key leaf known (nodes.flatMap offers) := by
  obtain ⟨consumed, split, taken_eq, _⟩ := explored.progress
  rw [split, List.append_nil, taken_eq]

theorem mem_seen {value : κ} : value ∈ seen ↔ value ∈ known ∨ value ∈ (nodes.flatMap offers).map key := by
  obtain ⟨consumed, split, _, seen_iff⟩ := explored.progress
  rw [split, List.append_nil, seen_iff]

theorem taken_offered {item : ι} (member : item ∈ taken) : item ∈ nodes.flatMap offers := by
  rw [explored.taken_eq] at member
  exact (mem_firstOffers member).1

theorem taken_first {item : ι} (member : item ∈ taken) :
    ∃ node, nodes[(firstSpot key offers nodes (key item)).1]? = some node ∧ item ∈ offers node := by
  rw [explored.taken_eq] at member
  have found := firstOffers_find member
  rw [List.flatMap] at found
  obtain ⟨list, isList, inList⟩ := spot_find found
  rw [List.getElem?_map, Option.map_eq_some_iff] at isList
  obtain ⟨node, isNode, rfl⟩ := isList
  exact ⟨node, isNode, inList⟩

theorem key_taken {value : κ} : value ∈ taken.map key ↔
    value ∈ (nodes.flatMap offers).map key ∧ value ∉ known ∧ leaf value = false := by
  rw [explored.taken_eq]
  constructor
  · intro member
    obtain ⟨item, isTaken, rfl⟩ := List.mem_map.mp member
    obtain ⟨offered, fresh, inner⟩ := mem_firstOffers isTaken
    exact ⟨List.mem_map_of_mem offered, fresh, inner⟩
  · rintro ⟨offered, fresh, inner⟩
    exact key_mem_firstOffers offered fresh inner

theorem taken_pairwise : taken.Pairwise fun earlier later =>
    (firstSpot key offers nodes (key earlier)).1 < (firstSpot key offers nodes (key later)).1 ∨
      (firstSpot key offers nodes (key earlier)).1 = (firstSpot key offers nodes (key later)).1 ∧
        (firstSpot key offers nodes (key earlier)).2 < (firstSpot key offers nodes (key later)).2 := by
  have ordered := @firstOffers_pairwise κ ι _ key leaf known (nodes.flatMap offers)
  rw [← explored.taken_eq] at ordered
  refine ordered.imp ?_
  intro earlier later before
  rw [List.flatMap] at before
  exact spot_lt_of_findIdx_lt before

theorem firstParents :
    FirstParents (Offers key offers nodes taken) nodes.length (parent key offers nodes taken) where
  bounded := by
    rintro source target ⟨_, _, _, positive, found, _⟩
    have bound := (List.getElem?_eq_some_iff.mp found).1
    have aligned := explored.aligned
    omega
  before := by
    intro node positive bound
    have aligned := explored.aligned
    have within : node - 1 < taken.length := by omega
    have found := List.getElem?_eq_getElem within
    have offered := explored.grounded (node - 1) _ found
    obtain ⟨offerer, isOfferer, inOfferer⟩ := List.mem_flatMap.mp offered
    obtain ⟨source, sourceBound, here⟩ := List.getElem_of_mem isOfferer
    simp only [List.length_take] at sourceBound
    rw [List.getElem_take] at here
    have least := firstSpot_le (List.getElem?_eq_some_iff.mpr ⟨by omega, here⟩)
      (List.mem_map_of_mem (f := key) inOfferer)
    simp only [parent, found]
    omega
  child := by
    intro node positive bound
    have aligned := explored.aligned
    have within : node - 1 < taken.length := by omega
    have found := List.getElem?_eq_getElem within
    have offered := explored.taken_offered (List.getElem_mem within)
    obtain ⟨offerer, here, inOfferer⟩ := firstSpot_offers (List.mem_map_of_mem (f := key) offered)
    refine ⟨offerer, taken[node - 1], ?_, positive, found, inOfferer⟩
    simpa only [parent, found] using here
  first := by
    rintro source target ⟨node, item, here, _, found, inOfferer⟩
    simpa only [parent, found] using firstSpot_le here inOfferer
  monotone := by
    intro left right positive ordered bound
    have aligned := explored.aligned
    rcases Nat.eq_or_lt_of_le ordered with rfl | strict
    · exact Nat.le_refl _
    · have leftWithin : left - 1 < taken.length := by omega
      have rightWithin : right - 1 < taken.length := by omega
      have spots := List.pairwise_iff_getElem.mp explored.taken_pairwise
        (left - 1) (right - 1) leftWithin rightWithin (by omega)
      simp only [parent, List.getElem?_eq_getElem leftWithin, List.getElem?_eq_getElem rightWithin]
      omega

end Explored

end Sloader.Data
