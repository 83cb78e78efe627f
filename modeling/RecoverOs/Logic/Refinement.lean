import RecoverOs.Logic.Transition

namespace Transition

universe u u' v v' w w' x

variable {σ : Type u} {σ' : Type u'} {ι : Type v} {ι' : Type v'} {ε : Type w} {ε' : Type w'} {ω : Type x}

/-- What a run shows; `visible` is what one operation shows in the state it is applied to. -/
def trace (step : σ → ι → Except ε σ) (visible : σ → ι → List ω) : σ → List ι → List ω
  | _, [] => []
  | s, op :: ops => visible s op ++ match step s op with
    | .ok next => trace step visible next ops
    | .error _ => []

theorem trace_cons {step : σ → ι → Except ε σ} {visible : σ → ι → List ω} {s next : σ} {op : ι} {ops : List ι}
    (taken : step s op = .ok next) : trace step visible s (op :: ops) = visible s op ++ trace step visible next ops := by
  rw [trace, taken]

theorem trace_append {step : σ → ι → Except ε σ} {visible : σ → ι → List ω} {s middle : σ} {first : List ι}
    (second : List ι) (ran : run step s first = .ok middle) :
    trace step visible s (first ++ second) = trace step visible s first ++ trace step visible middle second := by
  induction first generalizing s with
  | nil =>
    cases ran
    rfl
  | cons op ops ih =>
    obtain ⟨next, taken, rest⟩ := run_cons.mp ran
    rw [List.cons_append, trace_cons taken, trace_cons taken, ih rest, List.append_assoc]

/-- `rel` is a forward simulation: each operation of the one machine is matched by a run of the other one that shows
    the same. -/
def Simulates (step : σ → ι → Except ε σ) (step' : σ' → ι' → Except ε' σ') (visible : σ → ι → List ω)
    (visible' : σ' → ι' → List ω) (cond : σ → ι → Prop) (rel : σ → σ' → Prop) : Prop :=
  ∀ s a op next, rel s a → cond s op → step s op = .ok next →
    ∃ ops after, run step' a ops = .ok after ∧ trace step' visible' a ops = visible s op ∧ rel next after

theorem Simulates.run {step : σ → ι → Except ε σ} {step' : σ' → ι' → Except ε' σ'} {visible : σ → ι → List ω}
    {visible' : σ' → ι' → List ω} {cond : σ → ι → Prop} {rel : σ → σ' → Prop}
    (simulates : Simulates step step' visible visible' cond rel) {s last : σ} {a : σ'} {ops : List ι}
    (start : rel s a) (meets : Meets step cond s ops) (ran : run step s ops = .ok last) :
    ∃ ops' after, Transition.run step' a ops' = .ok after ∧
      trace step' visible' a ops' = trace step visible s ops ∧ rel last after := by
  induction ops generalizing s a with
  | nil =>
    cases ran
    exact ⟨[], a, rfl, rfl, start⟩
  | cons op ops ih =>
    obtain ⟨next, taken, rest⟩ := run_cons.mp ran
    obtain ⟨first, middle, matched, shown, related⟩ := simulates s a op next start meets.1 taken
    obtain ⟨second, after, finished, later, kept⟩ := ih related (meets.2 next taken) rest
    refine ⟨first ++ second, after, (run_append first second).mpr ⟨middle, matched, finished⟩, ?_, kept⟩
    rw [trace_append second matched, trace_cons taken, shown, later]

end Transition
