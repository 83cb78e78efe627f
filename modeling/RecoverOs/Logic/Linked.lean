import Mathlib.Data.List.Chain
import Mathlib.Logic.Function.Basic

namespace Linked

variable {α : Type*}

structure Node (α : Type*) where
  prev : α
  next : α

def Link (heap : α → Node α) (a b : α) : Prop := (heap a).next = b ∧ (heap b).prev = a

def Chain (heap : α → Node α) (nodes : List α) : Prop := nodes.IsChain (Link heap)

def Forward (heap : α → Node α) (nodes : List α) : Prop := nodes.IsChain fun a b => (heap a).next = b

def Backward (heap : α → Node α) (nodes : List α) : Prop := nodes.reverse.IsChain fun a b => (heap a).prev = b

variable {heap after : α → Node α} {front back nodes : List α} {p q elem : α}

theorem chain_iff : Chain heap nodes ↔ Forward heap nodes ∧ Backward heap nodes := by
  unfold Chain Forward Backward
  rw [List.isChain_reverse]
  induction nodes with
  | nil => simp
  | cons a nodes ih =>
    cases nodes with
    | nil => simp
    | cons b nodes =>
      rw [List.isChain_cons_cons, List.isChain_cons_cons, List.isChain_cons_cons, ih, Link]
      exact and_and_and_comm

theorem Forward.unique {a last : α} {l r : List α} (left : Forward heap (a :: (l ++ [last])))
    (right : Forward heap (a :: (r ++ [last]))) (left_absent : last ∉ l) (right_absent : last ∉ r) : l = r := by
  induction l generalizing a r with
  | nil =>
    have stop : (heap a).next = last := (List.isChain_cons_cons.mp left).1
    cases r with
    | nil => rfl
    | cons c r =>
      have step : (heap a).next = c := (List.isChain_cons_cons.mp right).1
      exact absurd (by rw [← stop, step]; exact List.mem_cons_self) right_absent
  | cons b l ih =>
    have step : (heap a).next = b := (List.isChain_cons_cons.mp left).1
    cases r with
    | nil =>
      have stop : (heap a).next = last := (List.isChain_cons_cons.mp right).1
      exact absurd (by rw [← stop, step]; exact List.mem_cons_self) left_absent
    | cons c r =>
      have other : (heap a).next = c := (List.isChain_cons_cons.mp right).1
      obtain rfl : b = c := step.symm.trans other
      rw [ih (List.isChain_cons_cons.mp left).2 (List.isChain_cons_cons.mp right).2
        (fun member => left_absent (List.mem_cons_of_mem b member))
        (fun member => right_absent (List.mem_cons_of_mem b member))]

theorem Chain.congr (chain : Chain heap nodes) (next : ∀ a ∈ nodes.dropLast, (after a).next = (heap a).next)
    (prev : ∀ a ∈ nodes.tail, (after a).prev = (heap a).prev) : Chain after nodes := by
  induction nodes with
  | nil => exact List.IsChain.nil
  | cons a nodes ih =>
    cases nodes with
    | nil => exact List.IsChain.singleton a
    | cons b nodes =>
      have pair := List.isChain_cons_cons.mp chain
      refine List.isChain_cons_cons.mpr ⟨⟨?_, ?_⟩, ih pair.2 ?_ ?_⟩
      · rw [next a (by simp)]
        exact pair.1.1
      · rw [prev b (by simp)]
        exact pair.1.2
      · intro c member
        exact next c (by simp [member])
      · intro c member
        exact prev c (List.mem_of_mem_tail member)

theorem Chain.frame (chain : Chain heap nodes) (same : ∀ a ∈ nodes, after a = heap a) : Chain after nodes := by
  apply chain.congr
  · intro a member
    rw [same a (List.dropLast_subset _ member)]
  · intro a member
    rw [same a (List.mem_of_mem_tail member)]

theorem Chain.parts (chain : Chain heap (front ++ p :: q :: back)) :
    Chain heap (front ++ [p]) ∧ Link heap p q ∧ Chain heap (q :: back) :=
  List.isChain_append_cons_cons.mp chain

variable [DecidableEq α]

def setPrev (heap : α → Node α) (a value : α) : α → Node α :=
  Function.update heap a { heap a with prev := value }

def setNext (heap : α → Node α) (a value : α) : α → Node α :=
  Function.update heap a { heap a with next := value }

def insertBefore (heap : α → Node α) (elem inserted : α) : α → Node α :=
  let heap := setNext heap inserted elem
  let heap := setPrev heap inserted (heap elem).prev
  let heap := setNext heap (heap elem).prev inserted
  setPrev heap elem inserted

def remove (heap : α → Node α) (elem : α) : α → Node α :=
  let heap := setNext heap (heap elem).prev (heap elem).next
  setPrev heap (heap elem).next (heap elem).prev

@[simp] theorem setPrev_prev (heap : α → Node α) (a v x : α) :
    (setPrev heap a v x).prev = if x = a then v else (heap x).prev := by
  unfold setPrev Function.update
  split <;> simp

@[simp] theorem setPrev_next (heap : α → Node α) (a v x : α) : (setPrev heap a v x).next = (heap x).next := by
  unfold setPrev Function.update
  split
  · rename_i same; subst same; rfl
  · rfl

@[simp] theorem setNext_next (heap : α → Node α) (a v x : α) :
    (setNext heap a v x).next = if x = a then v else (heap x).next := by
  unfold setNext Function.update
  split <;> simp

@[simp] theorem setNext_prev (heap : α → Node α) (a v x : α) : (setNext heap a v x).prev = (heap x).prev := by
  unfold setNext Function.update
  split
  · rename_i same; subst same; rfl
  · rfl

theorem insertBefore_next (heap : α → Node α) (elem inserted x : α) :
    (insertBefore heap elem inserted x).next =
      if x = (heap elem).prev then inserted else if x = inserted then elem else (heap x).next := by
  simp [insertBefore]

theorem insertBefore_prev (heap : α → Node α) (elem inserted x : α) :
    (insertBefore heap elem inserted x).prev =
      if x = elem then inserted else if x = inserted then (heap elem).prev else (heap x).prev := by
  simp [insertBefore]

theorem remove_next (heap : α → Node α) (elem x : α) :
    (remove heap elem x).next = if x = (heap elem).prev then (heap elem).next else (heap x).next := by
  simp [remove]

theorem remove_prev (heap : α → Node α) (elem x : α) :
    (remove heap elem x).prev = if x = (heap elem).next then (heap elem).prev else (heap x).prev := by
  simp [remove]

theorem Chain.insertBefore {inserted : α} (chain : Chain heap (front ++ p :: q :: back))
    (nodup : (front ++ p :: inserted :: q :: back).Nodup) :
    Chain (insertBefore heap q inserted) (front ++ p :: inserted :: q :: back) := by
  obtain ⟨left, link, right⟩ := chain.parts
  have before : (heap q).prev = p := link.2
  rw [List.nodup_append, List.nodup_cons, List.nodup_cons, List.nodup_cons] at nodup
  obtain ⟨-, ⟨outside, fresh, last, -⟩, apart⟩ := nodup
  refine List.isChain_append_cons_cons.mpr ⟨?_, ⟨?_, ?_⟩, List.isChain_cons_cons.mpr ⟨⟨?_, ?_⟩, ?_⟩⟩
  · apply left.congr
    · intro a member
      rw [List.dropLast_concat] at member
      rw [insertBefore_next, before, if_neg (apart a member p (by simp)), if_neg (apart a member inserted (by simp))]
    · intro a member
      have among := List.mem_of_mem_tail member
      have other : ∀ b ∈ inserted :: q :: back, a ≠ b := by
        intro b inside
        rcases List.mem_append.mp among with old | new
        · exact apart a old b (List.mem_cons_of_mem p inside)
        · rw [List.mem_singleton.mp new]
          exact fun same => outside (same ▸ inside)
      rw [insertBefore_prev, if_neg (other q (by simp)), if_neg (other inserted (by simp))]
  · rw [insertBefore_next, before, if_pos rfl]
  · rw [insertBefore_prev, before, if_neg (fun same => fresh (by simp [same])), if_pos rfl]
  · rw [insertBefore_next, before, if_neg (fun same => outside (by simp [same])), if_pos rfl]
  · rw [insertBefore_prev, if_pos rfl]
  · apply right.congr
    · intro a member
      have among := List.dropLast_subset _ member
      rw [insertBefore_next, before, if_neg (fun same => outside (by simp [← same, among])),
        if_neg (fun same : a = inserted => fresh (same ▸ among))]
    · intro a member
      rw [insertBefore_prev, if_neg (fun same : a = q => last (same ▸ member)),
        if_neg (fun same : a = inserted => fresh (List.mem_cons_of_mem q (same ▸ member)))]

theorem Chain.remove (chain : Chain heap (front ++ p :: elem :: q :: back))
    (nodup : (front ++ p :: elem :: q :: back).Nodup) : Chain (remove heap elem) (front ++ p :: q :: back) := by
  obtain ⟨left, first, rest⟩ := chain.parts
  obtain ⟨second, right⟩ : Link heap elem q ∧ Chain heap (q :: back) := List.isChain_cons_cons.mp rest
  rw [List.nodup_append, List.nodup_cons, List.nodup_cons, List.nodup_cons] at nodup
  obtain ⟨-, ⟨outside, gone, last, -⟩, apart⟩ := nodup
  refine List.isChain_append_cons_cons.mpr ⟨?_, ⟨?_, ?_⟩, ?_⟩
  · apply left.congr
    · intro a member
      rw [List.dropLast_concat] at member
      rw [remove_next, first.2, if_neg (apart a member p (by simp))]
    · intro a member
      have among := List.mem_of_mem_tail member
      have other : a ≠ q := by
        rcases List.mem_append.mp among with old | new
        · exact apart a old q (by simp)
        · rw [List.mem_singleton.mp new]
          exact fun same => outside (by simp [same])
      rw [remove_prev, second.1, if_neg other]
  · rw [remove_next, first.2, if_pos rfl, second.1]
  · rw [remove_prev, second.1, if_pos rfl, first.2]
  · apply right.congr
    · intro a member
      have among := List.dropLast_subset _ member
      rw [remove_next, first.2, if_neg (fun same => outside (by simp [← same, among]))]
    · intro a member
      rw [remove_prev, second.1, if_neg (fun same : a = q => last (same ▸ member))]

theorem insertBefore_frame {inserted x : α} (new : x ≠ inserted) (next : x ≠ elem) (prev : x ≠ (heap elem).prev) :
    Linked.insertBefore heap elem inserted x = heap x := by
  have nexts := insertBefore_next heap elem inserted x
  have prevs := insertBefore_prev heap elem inserted x
  rw [if_neg prev, if_neg new] at nexts
  rw [if_neg next, if_neg new] at prevs
  generalize Linked.insertBefore heap elem inserted x = node at nexts prevs
  cases node
  simp only at nexts prevs
  rw [nexts, prevs]

theorem remove_frame {x : α} (next : x ≠ (heap elem).next) (prev : x ≠ (heap elem).prev) :
    Linked.remove heap elem x = heap x := by
  have nexts := remove_next heap elem x
  have prevs := remove_prev heap elem x
  rw [if_neg prev] at nexts
  rw [if_neg next] at prevs
  generalize Linked.remove heap elem x = node at nexts prevs
  cases node
  simp only at nexts prevs
  rw [nexts, prevs]

end Linked
