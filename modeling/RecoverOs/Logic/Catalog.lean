import Mathlib.Data.List.Perm.Basic
import Mathlib.Data.List.Nodup
import Mathlib.Logic.Function.Basic

universe u v w

namespace Catalog

variable {α : Type u} {l : List α} {k j : Nat}

def removeAt (l : List α) (k : Nat) : List α :=
  match l.getLast? with
  | none => []
  | some last => (l.set k last).dropLast

theorem removeAt_concat (front : List α) (last : α) (k : Nat) :
    removeAt (front ++ [last]) k = if k < front.length then front.set k last else front := by
  simp only [removeAt, List.getLast?_concat]
  by_cases inside : k < front.length
  · rw [List.set_append_left _ _ inside, List.dropLast_concat, if_pos inside]
  · have tail : ([last].set (k - front.length) last) = [last] := by
      cases k - front.length with
      | zero => rfl
      | succ n => rfl
    rw [List.set_append_right _ _ (Nat.not_lt.mp inside), tail, List.dropLast_concat, if_neg inside]

theorem length_removeAt (l : List α) (k : Nat) : (removeAt l k).length = l.length - 1 := by
  rcases List.eq_nil_or_concat' l with rfl | ⟨front, last, rfl⟩
  · rfl
  · rw [removeAt_concat]
    split <;> simp

theorem getElem?_removeAt (inside : j + 1 < l.length) :
    (removeAt l k)[j]? = if j = k then l.getLast? else l[j]? := by
  rcases List.eq_nil_or_concat' l with rfl | ⟨front, last, rfl⟩
  · simp at inside
  · have low : j < front.length := by simpa using inside
    rw [removeAt_concat, List.getLast?_concat, List.getElem?_append_left low]
    by_cases here : j = k
    · rw [if_pos here, if_pos (here ▸ low), here, List.getElem?_set_self (here ▸ low)]
    · rw [if_neg here]
      split
      · rw [List.getElem?_set_ne (Ne.symm here)]
      · rfl

theorem removeAt_perm (inside : k < l.length) : (removeAt l k).Perm (l.eraseIdx k) := by
  rcases List.eq_nil_or_concat' l with rfl | ⟨front, last, rfl⟩
  · simp at inside
  · rw [removeAt_concat]
    by_cases low : k < front.length
    · rw [if_pos low, List.eraseIdx_append_of_lt_length low, List.set_eq_take_append_cons_drop, if_pos low,
        List.eraseIdx_eq_take_drop_succ, List.append_assoc]
      exact List.Perm.append_left _ (List.perm_append_singleton last _).symm
    · have here : k = front.length := by
        simp at inside
        omega
      rw [if_neg low, here, List.eraseIdx_append_of_length_le (Nat.le_refl _)]
      simp

section

variable {κ : Type v} {β : Type w} [DecidableEq κ] {key : α → κ} {value : α → β} {m : κ → Option β} {a : α}

def Represents (key : α → κ) (value : α → β) (l : List α) (m : κ → Option β) : Prop :=
  ∀ k v, m k = some v ↔ ∃ a ∈ l, key a = k ∧ value a = v

theorem represents_find (distinct : (l.map key).Nodup) :
    Represents key value l fun k => (l.find? fun a => key a = k).map value := by
  intro k v
  rw [Option.map_eq_some_iff]
  constructor
  · intro ⟨a, found, same⟩
    exact ⟨a, List.mem_of_find?_eq_some found, by simpa using List.find?_some found, same⟩
  · intro ⟨a, member, named, same⟩
    cases found : l.find? fun a => key a = k with
    | none =>
      have none := List.find?_eq_none.mp found a member
      simp [named] at none
    | some b =>
      have named' : key b = k := by simpa using List.find?_some found
      have equal := List.inj_on_of_nodup_map distinct (List.mem_of_find?_eq_some found) member (named'.trans named.symm)
      exact ⟨b, rfl, by rw [equal]; exact same⟩

omit [DecidableEq κ] in
theorem Represents.none_iff (represents : Represents key value l m) {k : κ} : m k = none ↔ ∀ a ∈ l, key a ≠ k := by
  constructor
  · intro missing a member same
    rw [(represents k (value a)).mpr ⟨a, member, same, rfl⟩] at missing
    cases missing
  · intro absent
    cases found : m k with
    | none => rfl
    | some v =>
      obtain ⟨a, member, same, _⟩ := (represents k v).mp found
      exact absurd same (absent a member)

theorem Represents.concat (represents : Represents key value l m) (absent : ∀ b ∈ l, key b ≠ key a) :
    Represents key value (l ++ [a]) (Function.update m (key a) (some (value a))) := by
  intro k v
  by_cases here : k = key a
  · subst here
    rw [Function.update_self]
    constructor
    · intro same
      cases same
      exact ⟨a, by simp, rfl, rfl⟩
    · intro ⟨b, member, named, same⟩
      rcases List.mem_append.mp member with old | last
      · exact absurd named (absent b old)
      · rw [← same, List.mem_singleton.mp last]
  · rw [Function.update_of_ne here, represents]
    constructor
    · intro ⟨b, member, rest⟩
      exact ⟨b, List.mem_append_left _ member, rest⟩
    · intro ⟨b, member, named, same⟩
      rcases List.mem_append.mp member with old | last
      · exact ⟨b, old, named, same⟩
      · rw [List.mem_singleton.mp last] at named
        exact absurd named.symm here

omit [DecidableEq κ] in
theorem nodup_concat (distinct : (l.map key).Nodup) (absent : ∀ b ∈ l, key b ≠ key a) : ((l ++ [a]).map key).Nodup := by
  rw [List.map_append, List.map_singleton, List.nodup_append]
  refine ⟨distinct, List.nodup_singleton _, ?_⟩
  intro k inside last isLast
  obtain ⟨b, member, rfl⟩ := List.mem_map.mp inside
  rw [List.mem_singleton.mp isLast]
  exact absent b member

theorem cons_removeAt (found : l[k]? = some a) : l.Perm (a :: removeAt l k) := by
  obtain ⟨inside, rfl⟩ := List.getElem?_eq_some_iff.mp found
  exact (List.getElem_cons_eraseIdx_perm inside).symm.trans ((removeAt_perm inside).symm.cons _)

theorem Represents.remove {rest : List α} (represents : Represents key value l m) (distinct : (l.map key).Nodup)
    (split : l.Perm (a :: rest)) : Represents key value rest (Function.update m (key a) none) := by
  rw [(split.map key).nodup_iff, List.map_cons, List.nodup_cons] at distinct
  intro k v
  by_cases here : k = key a
  · subst here
    rw [Function.update_self]
    constructor
    · intro same
      cases same
    · intro ⟨b, member, named, _⟩
      exact absurd (named ▸ List.mem_map_of_mem member) distinct.1
  · rw [Function.update_of_ne here, represents]
    constructor
    · intro ⟨b, member, named, same⟩
      rcases List.mem_cons.mp (split.mem_iff.mp member) with rfl | kept
      · exact absurd named.symm here
      · exact ⟨b, kept, named, same⟩
    · intro ⟨b, member, rest⟩
      exact ⟨b, split.mem_iff.mpr (List.mem_cons_of_mem _ member), rest⟩

omit [DecidableEq κ] in
theorem nodup_remove {rest : List α} (distinct : (l.map key).Nodup) (split : l.Perm (a :: rest)) : (rest.map key).Nodup := by
  rw [(split.map key).nodup_iff, List.map_cons, List.nodup_cons] at distinct
  exact distinct.2

end

end Catalog
