import Sloader.Data.Breadth

namespace Sloader.Data

/-! Explorations one after another.

Each has a start of its own and leaves out what those before it have met, so
that a key that is no leaf becomes a node of at most one of them, the starts
apart (`Linked.taken_nodup`), and of one of them as soon as a node offers it
(`Linked.met_taken`).
-/

variable {κ ι ν : Type} [DecidableEq κ]

theorem firstOffers_congr {key : ι → κ} {leaf : κ → Bool} {seen known : List κ} {items : List ι}
    (same : ∀ value, value ∈ seen ↔ value ∈ known) :
    firstOffers key leaf seen items = firstOffers key leaf known items := by
  induction items generalizing seen known with
  | nil => rfl
  | cons item rest ih =>
      have marked : ∀ value, value ∈ key item :: seen ↔ value ∈ key item :: known := by
        intro value
        rw [List.mem_cons, List.mem_cons, same]
      simp only [firstOffers, same, ih same, ih marked]

/-- A finished exploration: the key of its start, the nodes it reached and the
items it took for them. -/
structure Session (κ ι ν : Type) where
  root : κ
  nodes : List ν
  taken : List ι

section Linked

variable (key : ι → κ) (leaf : κ → Bool) (offers : ν → List ι)

def Session.met (session : Session κ ι ν) : List κ :=
  session.root :: (session.nodes.flatMap offers).map key

def met (history : List (Session κ ι ν)) : List κ :=
  history.flatMap (Session.met key offers)

/-- The exploration is over, and it started with the keys `known`. -/
def Session.Finished (known : List κ) (session : Session κ ι ν) : Prop :=
  ∃ seen, Explored key leaf offers (session.root :: known) session.nodes session.taken seen []

inductive Linked : List (Session κ ι ν) → Prop where
  | nothing : Linked []
  | explore {history : List (Session κ ι ν)} {session : Session κ ι ν} (linked : Linked history)
      (finished : session.Finished key leaf offers (met key offers history)) : Linked (history ++ [session])

variable {key leaf offers} {history : List (Session κ ι ν)} {session : Session κ ι ν} {value : κ}
  {known seen : List κ}

omit [DecidableEq κ] in
theorem met_append : value ∈ met key offers (history ++ [session]) ↔
    value ∈ met key offers history ∨ value = session.root ∨ value ∈ (session.nodes.flatMap offers).map key := by
  simp only [met, List.flatMap_append, List.flatMap_singleton, List.mem_append, Session.met, List.mem_cons]

/-- What an exploration has seen in the end, with what it knew at its start. -/
theorem Explored.met_append {nodes : List ν} {taken : List ι} {root : κ}
    (explored : Explored key leaf offers (root :: known) nodes taken seen [])
    (same : ∀ value, value ∈ known ↔ value ∈ met key offers history) :
    value ∈ seen ↔ value ∈ met key offers (history ++ [⟨root, nodes, taken⟩]) := by
  rw [explored.mem_seen, Data.met_append, List.mem_cons, same]
  tauto

theorem Explored.finished {nodes : List ν} {taken : List ι} {root : κ} {other : List κ}
    (explored : Explored key leaf offers (root :: known) nodes taken seen [])
    (same : ∀ value, value ∈ known ↔ value ∈ other) :
    Session.Finished key leaf offers other ⟨root, nodes, taken⟩ := by
  obtain ⟨consumed, split, taken_eq, seen_iff⟩ := explored.progress
  have rooted : ∀ value, value ∈ root :: known ↔ value ∈ root :: other := by
    intro value
    rw [List.mem_cons, List.mem_cons, same]
  refine ⟨seen, explored.aligned, ⟨consumed, split, ?_, ?_⟩, explored.grounded⟩
  · rw [taken_eq, firstOffers_congr rooted]
  · intro value
    rw [seen_iff, rooted]

theorem Session.Finished.taken_new (finished : session.Finished key leaf offers known)
    (member : value ∈ session.taken.map key) :
    value ∈ (session.nodes.flatMap offers).map key ∧ value ≠ session.root ∧ value ∉ known ∧ leaf value = false := by
  obtain ⟨_, explored⟩ := finished
  obtain ⟨offered, fresh, inner⟩ := explored.key_taken.mp member
  rw [List.mem_cons, not_or] at fresh
  exact ⟨offered, fresh.1, fresh.2, inner⟩

theorem Session.Finished.taken_nodup (finished : session.Finished key leaf offers known) :
    (session.taken.map key).Nodup := by
  obtain ⟨_, explored⟩ := finished
  rw [List.Nodup, List.pairwise_map]
  refine explored.taken_pairwise.imp ?_
  intro earlier later ordered same
  rw [same] at ordered
  omega

theorem Linked.met_taken (linked : Linked key leaf offers history) (isMet : value ∈ met key offers history)
    (inner : leaf value = false) :
    value ∈ history.map Session.root ∨ value ∈ (history.flatMap Session.taken).map key := by
  induction linked with
  | nothing => exact absurd isMet List.not_mem_nil
  | @explore history session _ finished ih =>
      simp only [List.map_append, List.flatMap_append, List.mem_append, List.map_singleton, List.flatMap_singleton,
        List.mem_singleton]
      rcases Data.met_append.mp isMet with before | root | offered
      · exact (ih before).imp .inl .inl
      · exact .inl (.inr root)
      · by_cases old : value ∈ met key offers history
        · exact (ih old).imp .inl .inl
        · by_cases root : value = session.root
          · exact .inl (.inr root)
          · obtain ⟨_, explored⟩ := finished
            refine .inr (.inr (explored.key_taken.mpr ⟨offered, ?_, inner⟩))
            rw [List.mem_cons, not_or]
            exact ⟨root, old⟩

theorem Linked.taken_met (linked : Linked key leaf offers history)
    (member : value ∈ (history.flatMap Session.taken).map key) :
    value ∈ met key offers history ∧ leaf value = false := by
  induction linked with
  | nothing => exact absurd member List.not_mem_nil
  | explore _ finished ih =>
      rw [List.flatMap_append, List.map_append, List.mem_append, List.flatMap_singleton] at member
      rw [Data.met_append]
      cases member with
      | inl before => exact ⟨.inl (ih before).1, (ih before).2⟩
      | inr new =>
          obtain ⟨offered, _, _, inner⟩ := finished.taken_new new
          exact ⟨.inr (.inr offered), inner⟩

/-- No key is taken twice, in one exploration or in two. -/
theorem Linked.taken_nodup (linked : Linked key leaf offers history) :
    ((history.flatMap Session.taken).map key).Nodup := by
  induction linked with
  | nothing => exact List.nodup_nil
  | explore linked finished ih =>
      rw [List.flatMap_append, List.map_append, List.flatMap_singleton, List.nodup_append]
      refine ⟨ih, finished.taken_nodup, ?_⟩
      rintro value before other new rfl
      exact (finished.taken_new new).2.2.1 (linked.taken_met before).1

theorem Linked.finished (linked : Linked key leaf offers history) (member : session ∈ history) :
    ∃ known, session.Finished key leaf offers known := by
  induction linked with
  | nothing => exact absurd member List.not_mem_nil
  | @explore history last _ finished ih =>
      rcases List.mem_append.mp member with before | new
      · exact ih before
      · rw [List.mem_singleton.mp new]
        exact ⟨_, finished⟩

omit [DecidableEq κ] in
theorem mem_met_of_offered {node : ν} {item : ι} (isNode : node ∈ history.flatMap Session.nodes)
    (offered : item ∈ offers node) : key item ∈ met key offers history := by
  obtain ⟨session, member, inSession⟩ := List.mem_flatMap.mp isNode
  refine List.mem_flatMap.mpr ⟨session, member, List.mem_cons_of_mem _ (List.mem_map_of_mem ?_)⟩
  exact List.mem_flatMap.mpr ⟨node, inSession, offered⟩

end Linked

end Sloader.Data
