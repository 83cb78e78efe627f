import Mathlib.Logic.Function.Basic

namespace Interference

universe u v w x

/-- `act t i s` gives what action `i` of task `t` leaves to be done in its place and the state after it. `may` are the
    ways in which an action is allowed not to go on. -/
structure Setting (σ : Type u) (τ : Type v) (ι : Type w) (ε : Type x) where
  act : τ → ι → σ → Except ε (List ι × σ)
  rely : τ → σ → σ → Prop
  guar : τ → σ → σ → Prop
  may : ι → σ → ε → Prop
  refl : ∀ t s, rely t s s
  trans : ∀ t r s s', rely t r s → rely t s s' → rely t r s'
  compatible : ∀ t u s s', u ≠ t → guar t s s' → rely u s s'

variable {σ : Type u} {τ : Type v} {ι : Type w} {ε : Type x} {sys : Setting σ τ ι ε} {t : τ} {i : ι} {prog more : List ι}
  {s s' : σ} {post : σ → Prop}

/-- From `s` on, whatever the others do, `t` runs through its program and ends with `post`. -/
inductive Safe (sys : Setting σ τ ι ε) (t : τ) (post : σ → Prop) : List ι → σ → Prop
  | done {s : σ} (ends : ∀ s', sys.rely t s s' → post s') : Safe sys t post [] s
  | act {i : ι} {prog : List ι} {s : σ}
      (stops : ∀ s' e, sys.rely t s s' → sys.act t i s' = .error e → sys.may i s' e)
      (keeps : ∀ s' more after, sys.rely t s s' → sys.act t i s' = .ok (more, after) → sys.guar t s' after)
      (next : ∀ s' more after, sys.rely t s s' → sys.act t i s' = .ok (more, after) →
        Safe sys t post (more ++ prog) after) : Safe sys t post (i :: prog) s

theorem Safe.rely (safe : Safe sys t post prog s) (moved : sys.rely t s s') : Safe sys t post prog s' := by
  cases safe with
  | done ends => exact .done fun s'' later => ends s'' (sys.trans t s s' s'' moved later)
  | act stops keeps next =>
    apply Safe.act
    · exact fun s'' e later failed => stops s'' e (sys.trans t s s' s'' moved later) failed
    · exact fun s'' more after later ran => keeps s'' more after (sys.trans t s s' s'' moved later) ran
    · exact fun s'' more after later ran => next s'' more after (sys.trans t s s' s'' moved later) ran

theorem Safe.ends (safe : Safe sys t post [] s) : post s := by
  cases safe with
  | done ends => exact ends s (sys.refl t s)

theorem Safe.stops {e : ε} (safe : Safe sys t post (i :: prog) s) (failed : sys.act t i s = .error e) :
    sys.may i s e := by
  cases safe with
  | act stops keeps next => exact stops s e (sys.refl t s) failed

theorem Safe.keeps (safe : Safe sys t post (i :: prog) s) (ran : sys.act t i s = .ok (more, s')) : sys.guar t s s' := by
  cases safe with
  | act stops keeps next => exact keeps s more s' (sys.refl t s) ran

/-- The rule for one action: an assertion that the others keep, and what the action makes of it. -/
theorem Safe.of_assertion {holds : σ → Prop} (stable : ∀ s s', holds s → sys.rely t s s' → holds s')
    (stops : ∀ s e, holds s → sys.act t i s = .error e → sys.may i s e)
    (goes : ∀ s more after, holds s → sys.act t i s = .ok (more, after) →
      sys.guar t s after ∧ Safe sys t post (more ++ prog) after)
    (start : holds s) : Safe sys t post (i :: prog) s := by
  apply Safe.act
  · exact fun s' e moved failed => stops s' e (stable s s' start moved) failed
  · exact fun s' more after moved ran => (goes s' more after (stable s s' start moved) ran).1
  · exact fun s' more after moved ran => (goes s' more after (stable s s' start moved) ran).2

theorem Safe.of_end {holds : σ → Prop} (stable : ∀ s s', holds s → sys.rely t s s' → holds s')
    (ends : ∀ s, holds s → post s) (start : holds s) : Safe sys t post [] s :=
  .done fun s' moved => ends s' (stable s s' start moved)

end Interference
