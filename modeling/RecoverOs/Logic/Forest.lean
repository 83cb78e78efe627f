import Mathlib.Data.List.Induction
import Mathlib.Logic.Function.Basic

namespace Forest

universe u

variable {α : Type u}

def follow (child : α → Nat → Option α) (node : α) : List Nat → Option α
  | [] => some node
  | i :: rest => (child node i).bind fun next => follow child next rest

variable {child child' : α → Nat → Option α} {roots : α → Prop} {ok : List Nat → Prop}
variable {root root' node other : α} {path path' : List Nat} {i : Nat}

theorem follow_snoc (child : α → Nat → Option α) (node : α) (path : List Nat) (i : Nat) :
    follow child node (path ++ [i]) = (follow child node path).bind fun last => child last i := by
  induction path generalizing node with
  | nil => cases edge : child node i <;> simp [follow, edge]
  | cons j rest ih =>
    rw [List.cons_append, follow, follow]
    cases edge : child node j with
    | none => rfl
    | some next => exact ih next

theorem follow_take {last : α} (reached : follow child node path = some last) (k : Nat) :
    ∃ other, follow child node (path.take k) = some other := by
  induction path generalizing node k with
  | nil => exact ⟨node, by rw [List.take_nil]; rfl⟩
  | cons i rest ih =>
    cases k with
    | zero => exact ⟨node, rfl⟩
    | succ k =>
      rw [follow, Option.bind_eq_some_iff] at reached
      obtain ⟨next, edge, later⟩ := reached
      obtain ⟨other, found⟩ := ih later k
      refine ⟨other, ?_⟩
      rw [List.take_succ_cons, follow, edge]
      exact found

structure Place (child : α → Nat → Option α) (roots : α → Prop) (ok : List Nat → Prop) (root : α) (path : List Nat)
    (node : α) : Prop where
  isRoot : roots root
  allowed : ok path
  reached : follow child root path = some node

def Separate (child : α → Nat → Option α) (roots : α → Prop) (ok : List Nat → Prop) : Prop :=
  ∀ root path root' path' node, Place child roots ok root path node → Place child roots ok root' path' node →
    root = root' ∧ path = path'

def Closed (ok : List Nat → Prop) : Prop := ∀ path i, ok (path ++ [i]) → ok path

theorem Place.snoc (place : Place child roots ok root path node) (allowed : ok (path ++ [i]))
    (edge : child node i = some other) : Place child roots ok root (path ++ [i]) other := by
  refine ⟨place.isRoot, allowed, ?_⟩
  rw [follow_snoc, place.reached]
  exact edge

theorem Place.init (closed : Closed ok) (place : Place child roots ok root (path ++ [i]) node) :
    ∃ parent, Place child roots ok root path parent ∧ child parent i = some node := by
  have last := place.reached
  rw [follow_snoc, Option.bind_eq_some_iff] at last
  obtain ⟨parent, before, edge⟩ := last
  exact ⟨parent, ⟨place.isRoot, closed path i place.allowed, before⟩, edge⟩

theorem follow_congr (closed : Closed ok) (isRoot : roots root)
    (same : ∀ path i node, ok (path ++ [i]) → Place child roots ok root path node → child' node i = child node i)
    (allowed : ok path) : follow child' root path = follow child root path := by
  induction path using List.reverseRecOn with
  | nil => rfl
  | append_singleton path i ih =>
    have before := ih (closed path i allowed)
    rw [follow_snoc, follow_snoc, before]
    cases reached : follow child root path with
    | none => rfl
    | some node => exact same path i node allowed ⟨isRoot, closed path i allowed, reached⟩

theorem place_congr (closed : Closed ok)
    (same : ∀ root path i node, ok (path ++ [i]) → Place child roots ok root path node → child' node i = child node i) :
    Place child' roots ok root path node ↔ Place child roots ok root path node := by
  constructor
  · intro place
    refine ⟨place.isRoot, place.allowed, ?_⟩
    rw [← place.reached]
    exact (follow_congr closed place.isRoot (same root) place.allowed).symm
  · intro place
    refine ⟨place.isRoot, place.allowed, ?_⟩
    rw [← place.reached]
    exact follow_congr closed place.isRoot (same root) place.allowed

/-- An edge to a new node is added. -/
structure Linked (child child' : α → Nat → Option α) (node : α) (i : Nat) (new : α) : Prop where
  free : child node i = none
  here : child' node i = some new
  others : ∀ x j, ¬ (x = node ∧ j = i) → child' x j = child x j

variable {new : α}

theorem place_linked (closed : Closed ok) (linked : Linked child child' node i new)
    (leaf : ∀ path j, ok (path ++ [i] ++ [j]) → child new j = none) (apart : new ≠ node) :
    Place child' roots ok root path other ↔ Place child roots ok root path other ∨
      (other = new ∧ ∃ before, path = before ++ [i] ∧ ok path ∧ Place child roots ok root before node) := by
  induction path using List.reverseRecOn generalizing other with
  | nil =>
    constructor
    · intro place
      exact .inl ⟨place.isRoot, place.allowed, place.reached⟩
    · rintro (place | ⟨_, before, wrong, _⟩)
      · exact ⟨place.isRoot, place.allowed, place.reached⟩
      · simp at wrong
  | append_singleton path j ih =>
    constructor
    · intro place
      obtain ⟨parent, before, edge⟩ := place.init closed
      rcases ih.mp before with old | ⟨rfl, earlier, rfl, allowed, _⟩
      · by_cases added : parent = node ∧ j = i
        · obtain ⟨rfl, rfl⟩ := added
          rw [linked.here] at edge
          cases edge
          exact .inr ⟨rfl, path, rfl, place.allowed, old⟩
        · rw [linked.others parent j added] at edge
          exact .inl (old.snoc place.allowed edge)
      · rw [linked.others parent j (fun same => apart same.1), leaf earlier j place.allowed] at edge
        cases edge
    · rintro (place | ⟨rfl, before, same, allowed, place⟩)
      · obtain ⟨parent, before, edge⟩ := place.init closed
        have different : ¬ (parent = node ∧ j = i) := by
          rintro ⟨rfl, rfl⟩
          rw [linked.free] at edge
          cases edge
        rw [← linked.others parent j different] at edge
        exact (ih.mpr (.inl before)).snoc place.allowed edge
      · obtain ⟨rfl, rfl⟩ := List.append_singleton_inj.mp same
        exact (ih.mpr (.inl place)).snoc allowed linked.here

theorem Separate.linked (closed : Closed ok) (separate : Separate child roots ok)
    (linked : Linked child child' node i new) (fresh : ∀ root path, ¬ Place child roots ok root path new)
    (leaf : ∀ path j, ok (path ++ [i] ++ [j]) → child new j = none) (apart : new ≠ node) :
    Separate child' roots ok := by
  intro root path root' path' other left right
  rcases (place_linked closed linked leaf apart).mp left with old | ⟨rfl, before, rfl, _, place⟩
  · rcases (place_linked closed linked leaf apart).mp right with old' | ⟨rfl, _⟩
    · exact separate root path root' path' other old old'
    · exact absurd old (fresh root path)
  · rcases (place_linked closed linked leaf apart).mp right with old' | ⟨_, before', rfl, _, place'⟩
    · exact absurd old' (fresh root' path')
    · obtain ⟨same, steps⟩ := separate root before root' before' node place place'
      exact ⟨same, by rw [steps]⟩

end Forest
