import Mathlib.Data.List.Induction
import Mathlib.Logic.Function.Basic

namespace Transition

universe u v w

variable {σ : Type u} {ι : Type v} {ε : Type w}

@[simp] theorem bind_ok {α β : Type u} (x : Except ε α) (f : α → Except ε β) (b : β) :
    (x >>= f) = .ok b ↔ ∃ a, x = .ok a ∧ f a = .ok b := by
  cases x with
  | error e => simp [Bind.bind, Except.bind]
  | ok a => simp [Bind.bind, Except.bind]

@[simp] theorem pure_ok {α : Type u} (a b : α) : (pure a : Except ε α) = .ok b ↔ a = b := by
  simp [Pure.pure, Except.pure]

theorem ok_bind {α β : Type u} (a : α) (f : α → Except ε β) : (Except.ok a : Except ε α) >>= f = f a := rfl

theorem bind_error {α β : Type u} {x : Except ε α} {f : α → Except ε β} {e : ε} :
    x >>= f = .error e ↔ x = .error e ∨ ∃ a, x = .ok a ∧ f a = .error e := by
  cases x with
  | error stop => simp [Bind.bind, Except.bind]
  | ok a => simp [Bind.bind, Except.bind]

theorem bind_fails {α β : Type u} {x : Except ε α} {f : α → Except ε β} (fails : ∀ a, ∃ e, f a = .error e) :
    ∃ e, (x >>= f) = .error e := by
  cases x with
  | error e => exact ⟨e, rfl⟩
  | ok a => exact fails a

theorem map_bind {α β γ : Type u} (g : β → γ) (x : Except ε α) (f : α → Except ε β) :
    (x >>= f).map g = x >>= fun a => (f a).map g := by
  cases x with
  | error e => rfl
  | ok a => rfl

def run (step : σ → ι → Except ε σ) : σ → List ι → Except ε σ
  | s, [] => .ok s
  | s, op :: ops => step s op >>= fun next => run step next ops

def Meets (step : σ → ι → Except ε σ) (cond : σ → ι → Prop) : σ → List ι → Prop
  | _, [] => True
  | s, op :: ops => cond s op ∧ ∀ next, step s op = .ok next → Meets step cond next ops

theorem Meets.and {step : σ → ι → Except ε σ} {cond : σ → ι → Prop} {good : ι → Prop} {s : σ} {ops : List ι}
    (meets : Meets step cond s ops) (all : ∀ op ∈ ops, good op) :
    Meets step (fun s op => cond s op ∧ good op) s ops := by
  induction ops generalizing s with
  | nil => exact True.intro
  | cons op ops ih =>
    refine ⟨⟨meets.1, all op (List.mem_cons_self ..)⟩, ?_⟩
    intro next taken
    exact ih (meets.2 next taken) fun other member => all other (List.mem_cons_of_mem op member)

theorem meets_always {step : σ → ι → Except ε σ} {cond : σ → ι → Prop} {s : σ} {ops : List ι}
    (always : ∀ op ∈ ops, ∀ s, cond s op) : Meets step cond s ops := by
  induction ops generalizing s with
  | nil => exact True.intro
  | cons op ops ih =>
    refine ⟨always op (List.mem_cons_self ..) s, ?_⟩
    intro next _
    exact ih fun other member => always other (List.mem_cons_of_mem op member)

theorem Meets.append {step : σ → ι → Except ε σ} {cond : σ → ι → Prop} {s : σ} {first second : List ι}
    (left : Meets step cond s first) (right : ∀ middle, run step s first = .ok middle → Meets step cond middle second) :
    Meets step cond s (first ++ second) := by
  induction first generalizing s with
  | nil => exact right s rfl
  | cons op ops ih =>
    refine ⟨left.1, ?_⟩
    intro next taken
    apply ih (left.2 next taken)
    intro middle ran
    apply right middle
    rw [run, taken]
    exact ran

theorem run_cons {step : σ → ι → Except ε σ} {s last : σ} {op : ι} {ops : List ι} :
    run step s (op :: ops) = .ok last ↔ ∃ next, step s op = .ok next ∧ run step next ops = .ok last := by
  simp [run]

theorem run_append {step : σ → ι → Except ε σ} {s last : σ} (first second : List ι) :
    run step s (first ++ second) = .ok last ↔
      ∃ middle, run step s first = .ok middle ∧ run step middle second = .ok last := by
  induction first generalizing s with
  | nil => simp [run]
  | cons op ops ih =>
    simp only [List.cons_append, run_cons, ih]
    constructor
    · rintro ⟨next, taken, middle, left, right⟩
      exact ⟨middle, ⟨next, taken, left⟩, right⟩
    · rintro ⟨middle, ⟨next, taken, left⟩, right⟩
      exact ⟨next, taken, middle, left, right⟩

theorem run_invariant {step : σ → ι → Except ε σ} {cond : σ → ι → Prop} {inv : σ → Prop}
    (preserved : ∀ s op next, inv s → cond s op → step s op = .ok next → inv next)
    {s last : σ} {ops : List ι} (start : inv s) (meets : Meets step cond s ops)
    (ran : run step s ops = .ok last) : inv last := by
  induction ops generalizing s with
  | nil =>
    cases ran
    exact start
  | cons op ops ih =>
    obtain ⟨next, taken, rest⟩ := run_cons.mp ran
    exact ih (preserved s op next start meets.1 taken) (meets.2 next taken) rest

/-- A concrete run is checked by evaluation: `check` is true of the state it ends in. -/
def endsIn (result : Except ε σ) (check : σ → Bool) : Bool :=
  match result with
  | .ok s => check s
  | .error _ => false

theorem exists_of_endsIn {result : Except ε σ} {check : σ → Bool} (holds : endsIn result check = true) :
    ∃ s, result = .ok s ∧ check s = true := by
  cases result with
  | error e => cases holds
  | ok s => exact ⟨s, rfl, holds⟩

def meetsCheck (step : σ → ι → Except ε σ) (cond : σ → ι → Prop) [∀ s op, Decidable (cond s op)] :
    σ → List ι → Bool
  | _, [] => true
  | s, op :: ops => decide (cond s op) &&
      match step s op with
      | .ok next => meetsCheck step cond next ops
      | .error _ => true

theorem meets_of_check {step : σ → ι → Except ε σ} {cond : σ → ι → Prop} [∀ s op, Decidable (cond s op)]
    {s : σ} {ops : List ι} (checked : meetsCheck step cond s ops = true) : Meets step cond s ops := by
  induction ops generalizing s with
  | nil => exact True.intro
  | cons op ops ih =>
    simp only [meetsCheck, Bool.and_eq_true, decide_eq_true_eq] at checked
    refine ⟨checked.1, ?_⟩
    intro next taken
    have rest := checked.2
    rw [taken] at rest
    exact ih rest

theorem meets_true (step : σ → ι → Except ε σ) (s : σ) (ops : List ι) :
    Meets step (fun _ _ => True) s ops := by
  induction ops generalizing s with
  | nil => exact True.intro
  | cons op ops ih => exact ⟨True.intro, fun next _ => ih next⟩

/-- Where a step keeps `good` exactly if it meets `cond`, a run stays good exactly if all its steps meet `cond`. -/
theorem foldl_good_iff {next : σ → ι → σ} {good : σ → Prop} {valid cond : σ → ι → Prop}
    (exact_step : ∀ s op, good s → valid s op → (good (next s op) ↔ cond s op)) {s : σ} (start : good s) (ops : List ι)
    (all_valid : ∀ front op back, ops = front ++ op :: back → valid (front.foldl next s) op) :
    (∀ front back, ops = front ++ back → good (front.foldl next s)) ↔
      ∀ front op back, ops = front ++ op :: back → cond (front.foldl next s) op := by
  constructor
  · intro stays front op back parts
    have before := stays front (op :: back) parts
    have after := stays (front ++ [op]) back (by rw [parts, List.append_assoc]; rfl)
    rw [List.foldl_append] at after
    exact (exact_step _ op before (all_valid front op back parts)).mp after
  · intro meets front
    induction front using List.reverseRecOn with
    | nil => exact fun _ _ => start
    | append_singleton front op ih =>
      intro back parts
      rw [List.append_assoc] at parts
      rw [List.foldl_append]
      exact (exact_step _ op (ih (op :: back) parts) (all_valid front op back parts)).mpr (meets front op back parts)

end Transition
