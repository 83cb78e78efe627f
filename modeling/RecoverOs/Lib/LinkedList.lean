import RecoverOs.Basic
import RecoverOs.Logic.Linked

namespace RecoverOs.Lib

open Linked

abbrev Nodes := Nat → Node Nat

structure PList where
  head : Nat
  tail : Nat

def listInit (nodes : Nodes) (plist : PList) : Nodes :=
  Function.update (Function.update nodes plist.head ⟨0, plist.tail⟩) plist.tail ⟨plist.head, 0⟩

def listEmpty (nodes : Nodes) (plist : PList) : Bool := decide ((nodes plist.head).next = plist.tail)

def listInsertBefore (nodes : Nodes) (pelem inserted : Nat) : Nodes := insertBefore nodes pelem inserted

def listRemove (nodes : Nodes) (pelem : Nat) : Nodes := remove nodes pelem

def listPush (nodes : Nodes) (plist : PList) (pelem : Nat) : Nodes :=
  listInsertBefore nodes (nodes plist.head).next pelem

def listAppend (nodes : Nodes) (plist : PList) (pelem : Nat) : Nodes := listInsertBefore nodes plist.tail pelem

def listPop (nodes : Nodes) (plist : PList) : Nat × Nodes :=
  ((nodes plist.head).next, listRemove nodes (nodes plist.head).next)

def elemFindFrom (nodes : Nodes) (tail pelem : Nat) : Nat → Nat → Except Halt Bool
  | 0, _ => .error .stuck
  | fuel + 1, ielem =>
    if ielem = tail then .ok false
    else if ielem = pelem then .ok true
    else elemFindFrom nodes tail pelem fuel (nodes ielem).next

def elemFind (nodes : Nodes) (plist : PList) (pelem fuel : Nat) : Except Halt Bool :=
  elemFindFrom nodes plist.tail pelem fuel (nodes plist.head).next

/-- The loop of `list_traversal` from `elem` on, for at most `fuel` turns and a `func` without side effects. -/
def listTraversalFrom (nodes : Nodes) (tail : Nat) (func : Nat → Bool) : Nat → Nat → Except Halt (Option Nat)
  | 0, _ => .error .stuck
  | fuel + 1, elem =>
    if elem = tail then .ok none
    else if func elem then .ok (some elem)
    else listTraversalFrom nodes tail func fuel (nodes elem).next

def listTraversal (nodes : Nodes) (plist : PList) (func : Nat → Bool) (fuel : Nat) : Except Halt (Option Nat) :=
  listTraversalFrom nodes plist.tail func fuel (nodes plist.head).next

def PList.cells (plist : PList) (elems : List Nat) : List Nat := plist.head :: (elems ++ [plist.tail])

structure Represents (nodes : Nodes) (plist : PList) (elems : List Nat) : Prop where
  chain : Chain nodes (plist.cells elems)
  nodup : (plist.cells elems).Nodup

variable {nodes after : Nodes} {plist : PList} {elems : List Nat} {e x : Nat}

theorem exists_last (a : Nat) (l : List Nat) : ∃ front p, a :: l = front ++ [p] := by
  rcases List.eq_nil_or_concat (a :: l) with empty | ⟨front, p, shape⟩
  · cases empty
  · exact ⟨front, p, shape.trans List.concat_eq_append⟩

theorem exists_first (l : List Nat) (a : Nat) : ∃ q back, l ++ [a] = q :: back := by
  cases l with
  | nil => exact ⟨a, [], rfl⟩
  | cons q l => exact ⟨q, l ++ [a], rfl⟩

theorem mem_cells : x ∈ plist.cells elems ↔ x = plist.head ∨ x ∈ elems ∨ x = plist.tail := by
  simp [PList.cells]

theorem Represents.frame (rep : Represents nodes plist elems) (same : ∀ a ∈ plist.cells elems, after a = nodes a) :
    Represents after plist elems :=
  ⟨rep.chain.frame same, rep.nodup⟩

theorem represents_init (apart : plist.head ≠ plist.tail) : Represents (listInit nodes plist) plist [] := by
  constructor
  · refine List.isChain_cons_cons.mpr ⟨⟨?_, ?_⟩, List.IsChain.singleton _⟩
    · simp [listInit, Function.update_of_ne apart]
    · simp [listInit]
  · simp [PList.cells, apart]

theorem Represents.nodup_elems (rep : Represents nodes plist elems) : elems.Nodup := by
  have nodup := rep.nodup
  rw [PList.cells, List.nodup_cons, List.nodup_append] at nodup
  exact nodup.2.1

theorem Represents.head_next (rep : Represents nodes plist (e :: elems)) : (nodes plist.head).next = e :=
  (List.isChain_cons_cons.mp rep.chain).1.1

theorem Represents.empty_iff (rep : Represents nodes plist elems) : listEmpty nodes plist = true ↔ elems = [] := by
  rw [listEmpty, decide_eq_true_iff]
  cases elems with
  | nil => simpa using (List.isChain_cons_cons.mp rep.chain).1.1
  | cons e elems =>
    rw [rep.head_next]
    have nodup := rep.nodup
    simp only [PList.cells, List.cons_append, List.nodup_cons, List.mem_append, List.mem_singleton] at nodup
    have other : e ≠ plist.tail := fun same => nodup.2.1 (.inr same)
    simp [other]

theorem cells_place (plist : PList) (l : List Nat) {r back : List Nat} {q : Nat} (place : r ++ [plist.tail] = q :: back) :
    ∃ front p, plist.cells (l ++ r) = front ++ p :: q :: back ∧
      plist.cells (l ++ e :: r) = front ++ p :: e :: q :: back := by
  obtain ⟨front, p, left⟩ := exists_last plist.head l
  refine ⟨front, p, ?_, ?_⟩
  · rw [PList.cells, List.append_assoc, place, ← List.cons_append, left, List.append_assoc]
    rfl
  · rw [PList.cells, List.append_assoc, List.cons_append, place, ← List.cons_append, left, List.append_assoc]
    rfl

theorem Represents.insert {l r back : List Nat} {q : Nat} (rep : Represents nodes plist (l ++ r))
    (place : r ++ [plist.tail] = q :: back) (fresh : e ∉ plist.cells (l ++ r)) :
    Represents (listInsertBefore nodes q e) plist (l ++ e :: r) := by
  obtain ⟨front, p, cells, longer⟩ := @cells_place e plist l r back q place
  obtain ⟨chain, old⟩ := rep
  rw [cells] at chain old fresh
  have nodup : (front ++ p :: e :: q :: back).Nodup := by
    have moved := @List.perm_middle _ e (front ++ [p]) (q :: back)
    rw [List.append_assoc, List.append_assoc] at moved
    exact moved.nodup_iff.mpr (List.nodup_cons.mpr ⟨fresh, old⟩)
  constructor
  · rw [longer]
    exact chain.insertBefore nodup
  · rw [longer]
    exact nodup

theorem Represents.insert_frame {l r back : List Nat} {q : Nat} (rep : Represents nodes plist (l ++ r))
    (place : r ++ [plist.tail] = q :: back) (outside : x ∉ plist.cells (l ++ r)) (other : x ≠ e) :
    listInsertBefore nodes q e x = nodes x := by
  obtain ⟨front, p, cells, -⟩ := @cells_place e plist l r back q place
  have chain := rep.chain
  rw [cells] at chain outside
  have before : (nodes q).prev = p := chain.parts.2.1.2
  apply insertBefore_frame other
  · exact fun same => outside (by simp [same])
  · exact fun same => outside (by simp [same, before])

theorem Represents.first (rep : Represents nodes plist elems) :
    ∃ back, elems ++ [plist.tail] = (nodes plist.head).next :: back := by
  obtain ⟨q, back, shape⟩ := exists_first elems plist.tail
  have chain := rep.chain
  rw [PList.cells, shape] at chain
  exact ⟨back, by rw [shape, (List.isChain_cons_cons.mp chain).1.1]⟩

theorem Represents.push (rep : Represents nodes plist elems) (fresh : e ∉ plist.cells elems) :
    Represents (listPush nodes plist e) plist (e :: elems) := by
  obtain ⟨back, first⟩ := rep.first
  have front : Represents nodes plist ([] ++ elems) := rep
  exact front.insert first fresh

theorem Represents.append (rep : Represents nodes plist elems) (fresh : e ∉ plist.cells elems) :
    Represents (listAppend nodes plist e) plist (elems ++ [e]) := by
  rw [← List.append_nil elems] at rep fresh
  exact rep.insert rfl fresh

theorem cells_split (plist : PList) (member : e ∈ elems) :
    ∃ front p q back, plist.cells elems = front ++ p :: e :: q :: back ∧
      plist.cells (elems.erase e) = front ++ p :: q :: back := by
  obtain ⟨l, r, absent, shape, erased⟩ := List.exists_erase_eq member
  obtain ⟨front, p, left⟩ := exists_last plist.head l
  obtain ⟨q, back, right⟩ := exists_first r plist.tail
  refine ⟨front, p, q, back, ?_, ?_⟩
  · rw [PList.cells, shape, List.append_assoc, List.cons_append, right, ← List.cons_append, left, List.append_assoc]
    rfl
  · rw [PList.cells, erased, List.append_assoc, right, ← List.cons_append, left, List.append_assoc]
    rfl

theorem Represents.remove (rep : Represents nodes plist elems) (member : e ∈ elems) :
    Represents (listRemove nodes e) plist (elems.erase e) := by
  obtain ⟨front, p, q, back, before, shorter⟩ := cells_split plist member
  have chain := rep.chain
  have nodup := rep.nodup
  rw [before] at chain nodup
  constructor
  · rw [shorter]
    exact chain.remove nodup
  · rw [shorter]
    refine List.Nodup.sublist ?_ nodup
    exact (List.Sublist.refl front).append ((List.sublist_cons_self e (q :: back)).cons_cons p)

theorem Represents.pop (rep : Represents nodes plist (e :: elems)) :
    listPop nodes plist = (e, listRemove nodes e) ∧ Represents (listRemove nodes e) plist elems := by
  constructor
  · rw [listPop, rep.head_next]
  · have removed := rep.remove (List.mem_cons_self ..)
    rwa [List.erase_cons_head] at removed

theorem listTraversalFrom_ok {tail a : Nat} {fuel : Nat} {func : Nat → Bool} (chain : Chain nodes (a :: (elems ++ [tail])))
    (absent : tail ∉ elems) (enough : elems.length < fuel) :
    listTraversalFrom nodes tail func fuel (nodes a).next = .ok (elems.find? func) := by
  induction elems generalizing a fuel with
  | nil =>
    cases fuel with
    | zero => cases enough
    | succ fuel =>
      have next : (nodes a).next = tail := (List.isChain_cons_cons.mp chain).1.1
      rw [listTraversalFrom, if_pos next, List.find?_nil]
  | cons b elems ih =>
    cases fuel with
    | zero => cases enough
    | succ fuel =>
      have pair := List.isChain_cons_cons.mp chain
      have next : (nodes a).next = b := pair.1.1
      rw [List.mem_cons, not_or] at absent
      rw [listTraversalFrom, next, if_neg (fun same => absent.1 same.symm), List.find?_cons]
      cases func b with
      | true => rfl
      | false => exact ih pair.2 absent.2 (Nat.lt_of_succ_lt_succ enough)

theorem Represents.ends (rep : Represents nodes plist elems) :
    plist.head ≠ plist.tail ∧ plist.head ∉ elems ∧ plist.tail ∉ elems := by
  have nodup := rep.nodup
  simp only [PList.cells, List.nodup_cons, List.nodup_append, List.mem_append, List.mem_singleton, not_or] at nodup
  exact ⟨nodup.1.2, nodup.1.1, fun member => nodup.2.2.2 _ member _ rfl rfl⟩

theorem Represents.traversal {fuel : Nat} (rep : Represents nodes plist elems) (func : Nat → Bool)
    (enough : elems.length < fuel) : listTraversal nodes plist func fuel = .ok (elems.find? func) :=
  listTraversalFrom_ok rep.chain rep.ends.2.2 enough

theorem elemFindFrom_traversal (nodes : Nodes) (tail pelem fuel ielem : Nat) :
    elemFindFrom nodes tail pelem fuel ielem =
      (listTraversalFrom nodes tail (fun a => decide (a = pelem)) fuel ielem).map Option.isSome := by
  induction fuel generalizing ielem with
  | zero => rfl
  | succ fuel ih =>
    rw [elemFindFrom, listTraversalFrom, ih]
    by_cases last : ielem = tail
    · rw [if_pos last, if_pos last]
      rfl
    · rw [if_neg last, if_neg last]
      by_cases found : ielem = pelem
      · rw [if_pos found, if_pos (decide_eq_true found)]
        rfl
      · rw [if_neg found, if_neg (fun same => found (of_decide_eq_true same))]

theorem Represents.find {fuel : Nat} (rep : Represents nodes plist elems) (enough : elems.length < fuel) :
    elemFind nodes plist e fuel = .ok (decide (e ∈ elems)) := by
  have search := rep.traversal (fun a => decide (a = e)) enough
  rw [listTraversal] at search
  rw [elemFind, elemFindFrom_traversal, search]
  rw [Except.map, Except.ok.injEq, Bool.eq_iff_iff, List.find?_isSome, decide_eq_true_iff]
  simp

theorem Represents.push_frame (rep : Represents nodes plist elems) (outside : x ∉ plist.cells elems) (other : x ≠ e) :
    listPush nodes plist e x = nodes x := by
  obtain ⟨back, first⟩ := rep.first
  have front : Represents nodes plist ([] ++ elems) := rep
  exact front.insert_frame first outside other

theorem Represents.append_frame (rep : Represents nodes plist elems) (outside : x ∉ plist.cells elems) (other : x ≠ e) :
    listAppend nodes plist e x = nodes x := by
  rw [← List.append_nil elems] at rep outside
  exact rep.insert_frame rfl outside other

theorem Represents.remove_frame (rep : Represents nodes plist elems) (member : e ∈ elems)
    (outside : x ∉ plist.cells elems) : listRemove nodes e x = nodes x := by
  obtain ⟨front, p, q, back, before, -⟩ := cells_split plist member
  have chain := rep.chain
  rw [before] at chain outside
  have first : (nodes e).prev = p := chain.parts.2.1.2
  have second : (nodes e).next = q := (List.isChain_cons_cons.mp chain.parts.2.2).1.1
  apply Linked.remove_frame
  · exact fun same => outside (by simp [same, second])
  · exact fun same => outside (by simp [same, first])

theorem insertIdx_idxOf (l r : List Nat) {q : Nat} (first : q ∉ l) :
    (l ++ q :: r).insertIdx ((l ++ q :: r).idxOf q) e = l ++ e :: q :: r := by
  induction l with
  | nil => simp
  | cons a l ih =>
    simp only [List.mem_cons, not_or] at first
    rw [List.cons_append, List.idxOf_cons_ne _ (fun same => first.1 same.symm), Nat.succ_eq_add_one,
      List.insertIdx_succ_cons, ih first.2]
    rfl

theorem Represents.place {pelem : Nat} (rep : Represents nodes plist elems) (inside : pelem ∈ elems ∨ pelem = plist.tail) :
    ∃ l r back, elems = l ++ r ∧ r ++ [plist.tail] = pelem :: back ∧
      elems.insertIdx (elems.idxOf pelem) e = l ++ e :: r := by
  rcases inside with member | rfl
  · obtain ⟨l, r, absent, shape, -⟩ := List.exists_erase_eq member
    refine ⟨l, pelem :: r, r ++ [plist.tail], shape, rfl, ?_⟩
    rw [shape]
    exact insertIdx_idxOf l r absent
  · refine ⟨elems, [], [], (List.append_nil _).symm, rfl, ?_⟩
    rw [List.idxOf_of_notMem rep.ends.2.2, List.insertIdx_length_self]

/-- The next-chain from the head to the tail and the prev-chain from the tail to the head visit `elems`, in opposite
    orders and each of them once. -/
structure Consistent (nodes : Nodes) (plist : PList) (elems : List Nat) : Prop where
  forward : Forward nodes (plist.cells elems)
  backward : Backward nodes (plist.cells elems)
  nodup : elems.Nodup
  last : plist.tail ∉ elems
  apart : plist.head ≠ plist.tail

theorem Consistent.head_fresh (consistent : Consistent nodes plist elems) : plist.head ∉ elems := by
  intro member
  obtain ⟨l, r, absent, shape, -⟩ := List.exists_erase_eq member
  obtain ⟨forward, -, nodup, last, apart⟩ := consistent
  have again : Forward nodes (plist.head :: (r ++ [plist.tail])) := by
    have visits := forward
    rw [PList.cells, shape, List.append_assoc, List.cons_append, ← List.cons_append] at visits
    exact List.IsChain.right_of_append visits
  have same := forward.unique again last fun among => last (by simp [shape, among])
  rw [shape] at same
  have lengths := congrArg List.length same
  rw [List.length_append, List.length_cons] at lengths
  omega

theorem consistent_iff : Consistent nodes plist elems ↔ Represents nodes plist elems := by
  constructor
  · intro consistent
    have fresh := consistent.head_fresh
    obtain ⟨forward, backward, nodup, last, apart⟩ := consistent
    refine ⟨chain_iff.mpr ⟨forward, backward⟩, ?_⟩
    have ends : ∀ a ∈ elems, a ≠ plist.tail := fun a member same => last (same ▸ member)
    simpa [PList.cells, List.nodup_append, nodup, fresh, apart] using ends
  · intro rep
    obtain ⟨forward, backward⟩ := chain_iff.mp rep.chain
    obtain ⟨apart, -, last⟩ := rep.ends
    exact ⟨forward, backward, rep.nodup_elems, last, apart⟩

inductive ListOp where
  | push (pelem : Nat)
  | append (pelem : Nat)
  | insertBefore (pelem inserted : Nat)
  | remove (pelem : Nat)
  | pop

def ListOp.run (nodes : Nodes) (plist : PList) : ListOp → Nodes
  | .push pelem => listPush nodes plist pelem
  | .append pelem => listAppend nodes plist pelem
  | .insertBefore pelem inserted => listInsertBefore nodes pelem inserted
  | .remove pelem => listRemove nodes pelem
  | .pop => (listPop nodes plist).2

def ListOp.incoming : ListOp → Option Nat
  | .push pelem => some pelem
  | .append pelem => some pelem
  | .insertBefore _ inserted => some inserted
  | .remove _ => none
  | .pop => none

/-- Where the operation is in place, besides that the element that comes in is in no list. -/
def ListOp.Allowed (plist : PList) (elems : List Nat) : ListOp → Prop
  | .push _ => True
  | .append _ => True
  | .insertBefore pelem _ => pelem ∈ elems ∨ pelem = plist.tail
  | .remove pelem => pelem ∈ elems
  | .pop => elems ≠ []

def ListOp.updated (elems : List Nat) : ListOp → List Nat
  | .push pelem => pelem :: elems
  | .append pelem => elems ++ [pelem]
  | .insertBefore pelem inserted => elems.insertIdx (elems.idxOf pelem) inserted
  | .remove pelem => elems.erase pelem
  | .pop => elems.tail

theorem Represents.step (rep : Represents nodes plist elems) {op : ListOp} (allowed : op.Allowed plist elems)
    (fresh : ∀ e ∈ op.incoming, e ∉ plist.cells elems) :
    Represents (op.run nodes plist) plist (op.updated elems) := by
  cases op with
  | push pelem => exact rep.push (fresh pelem rfl)
  | append pelem => exact rep.append (fresh pelem rfl)
  | insertBefore pelem inserted =>
    obtain ⟨l, r, back, parts, place, updated⟩ := @Represents.place nodes plist elems inserted pelem rep allowed
    have new := fresh inserted rfl
    rw [parts] at rep new
    rw [ListOp.updated, updated]
    exact rep.insert place new
  | remove pelem => exact rep.remove allowed
  | pop =>
    cases elems with
    | nil => exact absurd rfl allowed
    | cons e elems =>
      obtain ⟨popped, rest⟩ := rep.pop
      rw [ListOp.run, popped]
      exact rest

theorem Represents.step_frame (rep : Represents nodes plist elems) {op : ListOp} (allowed : op.Allowed plist elems)
    (outside : x ∉ plist.cells elems) (other : op.incoming ≠ some x) : op.run nodes plist x = nodes x := by
  cases op with
  | push pelem => exact rep.push_frame outside fun same => other (congrArg some same.symm)
  | append pelem => exact rep.append_frame outside fun same => other (congrArg some same.symm)
  | insertBefore pelem inserted =>
    obtain ⟨l, r, back, parts, place, -⟩ := @Represents.place nodes plist elems inserted pelem rep allowed
    rw [parts] at rep outside
    exact rep.insert_frame place outside fun same => other (congrArg some same.symm)
  | remove pelem => exact rep.remove_frame allowed outside
  | pop =>
    cases elems with
    | nil => exact absurd rfl allowed
    | cons e elems =>
      rw [ListOp.run, rep.pop.1]
      exact rep.remove_frame List.mem_cons_self outside

/-- An element that comes in is in no list; then the sequence is updated and every other list keeps its nodes. -/
theorem list_refines_sequence (consistent : Consistent nodes plist elems) :
    (∀ op : ListOp, op.Allowed plist elems → (∀ e ∈ op.incoming, e ∉ plist.cells elems) →
      Consistent (op.run nodes plist) plist (op.updated elems) ∧
        ∀ other others, Consistent nodes other others → (plist.cells elems).Disjoint (other.cells others) →
          (∀ e ∈ op.incoming, e ∉ other.cells others) →
            Consistent (op.run nodes plist) other others ∧ ∀ a ∈ other.cells others, op.run nodes plist a = nodes a) ∧
    (elems ≠ [] → elems.head? = some (listPop nodes plist).1) ∧
    (∀ pelem fuel, elems.length < fuel → elemFind nodes plist pelem fuel = .ok (decide (pelem ∈ elems))) ∧
    ∀ func fuel, elems.length < fuel → listTraversal nodes plist func fuel = .ok (elems.find? func) := by
  have rep := consistent_iff.mp consistent
  refine ⟨?_, ?_, fun _ _ enough => rep.find enough, fun func _ enough => rep.traversal func enough⟩
  · intro op allowed fresh
    refine ⟨consistent_iff.mpr (rep.step allowed fresh), ?_⟩
    intro other others apart disjoint new
    have kept : ∀ a ∈ other.cells others, op.run nodes plist a = nodes a := fun a member =>
      rep.step_frame allowed (fun inside => disjoint inside member) fun same => new a same member
    exact ⟨consistent_iff.mpr ((consistent_iff.mp apart).frame kept), kept⟩
  · intro nonempty
    cases elems with
    | nil => exact absurd rfl nonempty
    | cons e elems => rw [rep.pop.1, List.head?_cons]

def twoLists : Nodes
  | 1 => ⟨0, 3⟩
  | 3 => ⟨1, 4⟩
  | 4 => ⟨3, 5⟩
  | 5 => ⟨4, 2⟩
  | 2 => ⟨5, 0⟩
  | 11 => ⟨0, 13⟩
  | 13 => ⟨11, 12⟩
  | _ => ⟨13, 0⟩

theorem twoLists_consistent : Consistent twoLists ⟨1, 2⟩ [3, 4, 5] ∧ Consistent twoLists ⟨11, 12⟩ [13] := by
  constructor
  · constructor
    · exact .cons_cons rfl (.cons_cons rfl (.cons_cons rfl (.cons_cons rfl (.singleton _))))
    · exact .cons_cons rfl (.cons_cons rfl (.cons_cons rfl (.cons_cons rfl (.singleton _))))
    · decide
    · decide
    · decide
  · constructor
    · exact .cons_cons rfl (.cons_cons rfl (.singleton _))
    · exact .cons_cons rfl (.cons_cons rfl (.singleton _))
    · decide
    · decide
    · decide

theorem list_refines_sequence_three : Consistent (listInsertBefore twoLists 4 6) ⟨1, 2⟩ [3, 6, 4, 5] ∧
    Consistent (listInsertBefore twoLists 4 6) ⟨11, 12⟩ [13] ∧
    Consistent (listPop twoLists ⟨1, 2⟩).2 ⟨1, 2⟩ [4, 5] ∧ some 3 = some (listPop twoLists ⟨1, 2⟩).1 ∧
    elemFind twoLists ⟨1, 2⟩ 5 4 = .ok true ∧
    listTraversal twoLists ⟨1, 2⟩ (fun a => decide (3 < a)) 4 = .ok (some 4) := by
  obtain ⟨operations, first, found, traversed⟩ := list_refines_sequence twoLists_consistent.1
  have new : ∀ e ∈ (ListOp.insertBefore 4 6).incoming,
      e ∉ PList.cells ⟨1, 2⟩ [3, 4, 5] ∧ e ∉ PList.cells ⟨11, 12⟩ [13] := by
    intro e incoming
    cases incoming
    decide
  have none : ∀ e ∈ ListOp.pop.incoming, e ∉ PList.cells ⟨1, 2⟩ [3, 4, 5] := by
    intro e incoming
    cases incoming
  have disjoint : (PList.cells ⟨1, 2⟩ [3, 4, 5]).Disjoint (PList.cells ⟨11, 12⟩ [13]) :=
    List.disjoint_left.mpr (by decide)
  have inserts := operations (.insertBefore 4 6) (.inl (by decide)) fun e incoming => (new e incoming).1
  have pops := operations .pop (List.cons_ne_nil _ _) none
  have other := inserts.2 ⟨11, 12⟩ [13] twoLists_consistent.2 disjoint fun e incoming => (new e incoming).2
  exact ⟨inserts.1, other.1, pops.1, first (List.cons_ne_nil _ _), found 5 4 (by decide), traversed _ 4 (by decide)⟩

end RecoverOs.Lib
