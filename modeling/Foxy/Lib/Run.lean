import Mathlib.Data.List.Basic
import Mathlib.Logic.Function.Iterate
import Mathlib.Tactic.Common

/-!
# Foxy.Lib.Run

Runs of event-driven machines.

A machine is a partial step function `step : σ → ε → Option σ`: `step s e` is
the state after the event `e`, or `none` where `e` cannot happen in `s`. Code
that suspends on asynchronous operations fits this shape directly: the state
records the suspension point, the event is the completion the code is resumed
with.

`Run` keeps the whole history, every event paired with the state it happened
in, so that a property of a run can speak about any of its steps.
-/

namespace Lib

variable {σ ε : Type*}

/-- `Run step s₀ tr s`: from `s₀` the machine reaches `s` through the events of
`tr`, each paired with the state it happened in. -/
inductive Run (step : σ → ε → Option σ) (s₀ : σ) : List (σ × ε) → σ → Prop
  | nil : Run step s₀ [] s₀
  | snoc {tr : List (σ × ε)} {s s' : σ} {e : ε} :
      Run step s₀ tr s → step s e = some s' → Run step s₀ (tr ++ [(s, e)]) s'

variable {step : σ → ε → Option σ} {s₀ s : σ} {tr : List (σ × ε)}

/-- The invariant rule: a relation between history and state that holds at the
start and is kept by every step of a run holds after every run. -/
theorem Run.invariant {I : List (σ × ε) → σ → Prop} (h : Run step s₀ tr s)
    (init : I [] s₀)
    (keep : ∀ tr s e s', Run step s₀ tr s → I tr s → step s e = some s' →
      I (tr ++ [(s, e)]) s') : I tr s := by
  induction h with
  | nil => exact init
  | snoc hr hs ih => exact keep _ _ _ _ hr ih hs

/-- The invariant rule for runs all of whose steps satisfy `C`. -/
theorem Run.invariant_of {I : List (σ × ε) → σ → Prop} {C : σ × ε → Prop}
    (h : Run step s₀ tr s) (hC : ∀ x ∈ tr, C x) (init : I [] s₀)
    (keep : ∀ tr s e s', I tr s → C (s, e) → step s e = some s' →
      I (tr ++ [(s, e)]) s') : I tr s := by
  induction h with
  | nil => exact init
  | snoc _ hs ih =>
      exact keep _ _ _ _ (ih fun x hx => hC x (List.mem_append_left _ hx))
        (hC _ (by simp)) hs

/-- A run cut at one of its steps: what led to the step, the step, and what came
after it. -/
theorem Run.cut {before after : List (σ × ε)} {x : σ × ε}
    (h : Run step s₀ (before ++ x :: after) s) :
    ∃ s', Run step s₀ before x.1 ∧ step x.1 x.2 = some s' ∧ Run step s' after s := by
  generalize htr : before ++ x :: after = tr at h
  induction h generalizing after with
  | nil => simp at htr
  | @snoc tr s s' e hr hs ih =>
      rcases List.eq_nil_or_concat after with rfl | ⟨after, y, rfl⟩
      · obtain ⟨rfl, hx⟩ := List.append_inj' htr rfl
        obtain rfl : x = (s, e) := by simpa using hx
        exact ⟨s', hr, hs, .nil⟩
      · rw [List.concat_eq_append, ← List.cons_append, ← List.append_assoc] at htr
        obtain ⟨hinit, hy⟩ := List.append_inj' htr rfl
        obtain rfl : y = (s, e) := by simpa using hy
        obtain ⟨s₁, hbefore, hstep, hafter⟩ := ih hinit
        refine ⟨s₁, hbefore, hstep, ?_⟩
        rw [List.concat_eq_append]
        exact hafter.snoc hs

/-- Every step of a run was made in a state the run reached before. -/
theorem Run.split {x : σ × ε} (h : Run step s₀ tr s) (hx : x ∈ tr) :
    ∃ before after s', tr = before ++ x :: after ∧ Run step s₀ before x.1 ∧
      step x.1 x.2 = some s' := by
  obtain ⟨before, after, rfl⟩ := List.append_of_mem hx
  obtain ⟨s', hbefore, hstep, -⟩ := h.cut
  exact ⟨before, after, s', rfl, hbefore, hstep⟩

/-- What has happened stays in the history. -/
theorem happened_snoc {x : σ × ε} {e : ε} (h : ∃ s, (s, e) ∈ tr) : ∃ s, (s, e) ∈ tr ++ [x] := by
  obtain ⟨s, hmem⟩ := h
  exact ⟨s, List.mem_append_left _ hmem⟩

/-- What holds of every step of a history and of the next one. -/
theorem forall_mem_snoc {α : Type*} {p : α → Prop} {l : List α} {x : α} (hl : ∀ y ∈ l, p y)
    (hx : p x) : ∀ y ∈ l ++ [x], p y :=
  List.forall_mem_append.2 ⟨hl, List.forall_mem_singleton.2 hx⟩

/-- A log read off a history grows with every step. -/
theorem filterMap_snoc {α β : Type*} (f : α → Option β) (l : List α) (x : α) :
    (l ++ [x]).filterMap f = l.filterMap f ++ (f x).toList := by
  rw [List.filterMap_append]
  cases h : f x <;> simp [h]

/-- Feed a list of events to the machine, recording the history. -/
def exec (step : σ → ε → Option σ) (s : σ) : List ε → Option (List (σ × ε) × σ)
  | [] => some ([], s)
  | e :: es =>
    match step s e with
    | none => none
    | some s' => (exec step s' es).map fun r => ((s, e) :: r.1, r.2)

/-- A run continued from its last state. -/
theorem Run.append {tr' : List (σ × ε)} {s' : σ} (h : Run step s₀ tr s)
    (h' : Run step s tr' s') : Run step s₀ (tr ++ tr') s' := by
  induction h' with
  | nil => simpa using h
  | snoc _ hs ih => simpa [List.append_assoc] using ih.snoc hs

/-- What `exec` computes is a run. -/
theorem Run.of_exec {es : List ε} (h : exec step s₀ es = some (tr, s)) : Run step s₀ tr s := by
  induction es generalizing s₀ tr with
  | nil =>
      simp only [exec, Option.some.injEq, Prod.mk.injEq] at h
      obtain ⟨rfl, rfl⟩ := h
      exact .nil
  | cons e es ih =>
      simp only [exec] at h
      cases hs : step s₀ e with
      | none => simp [hs] at h
      | some s₁ =>
          simp only [hs, Option.map_eq_some_iff, Prod.mk.injEq] at h
          obtain ⟨⟨tr₁, s₂⟩, hex, rfl, rfl⟩ := h
          exact (Run.nil.snoc hs).append (ih hex)

/-- A machine whose every step another one can match, by no step or by several,
reaches nothing the other one does not. -/
theorem Run.simulate {σ' ε' : Type*} {step' : σ' → ε' → Option σ'} {R : σ → σ' → Prop} {t₀ : σ'}
    (h : Run step s₀ tr s) (h₀ : R s₀ t₀)
    (hmatch : ∀ s e s' t, R s t → step s e = some s' →
      ∃ tr' t', Run step' t tr' t' ∧ R s' t') :
    ∃ tr' t, Run step' t₀ tr' t ∧ R s t := by
  induction h with
  | nil => exact ⟨[], t₀, .nil, h₀⟩
  | snoc _ hs ih =>
      obtain ⟨tr₁, t, hr, hR⟩ := ih
      obtain ⟨tr₂, t', hr', hR'⟩ := hmatch _ _ _ t hR hs
      exact ⟨tr₁ ++ tr₂, t', hr.append hr', hR'⟩

/-! ### Endless runs -/

/-- From `s` the machine can go on for ever with events out of `E`. -/
def Forever (step : σ → ε → Option σ) (E : ε → Prop) (s : σ) : Prop :=
  ∃ (f : ℕ → σ) (e : ℕ → ε), f 0 = s ∧ ∀ n, E (e n) ∧ step (f n) (e n) = some (f (n + 1))

/-- A machine that can always make a step that keeps `C` can go on for ever. -/
theorem forever_of_step {C : σ → Prop} {E : ε → Prop}
    (h : ∀ s, C s → ∃ e s', E e ∧ step s e = some s' ∧ C s') (hs : C s) : Forever step E s := by
  choose e next hE hstep hC using h
  let g : {s // C s} → {s // C s} := fun x => ⟨next x.1 x.2, hC x.1 x.2⟩
  refine ⟨fun n => (g^[n] ⟨s, hs⟩).1, fun n => e _ (g^[n] ⟨s, hs⟩).2, rfl, ?_⟩
  intro n
  refine ⟨hE _ _, ?_⟩
  show step _ _ = some (g^[n + 1] ⟨s, hs⟩).1
  rw [Function.iterate_succ_apply']
  exact hstep _ _

/-- A machine whose steps out of `E` keep `C` and lower a measure cannot. -/
theorem not_forever_of_measure {C : σ → Prop} {E : ε → Prop} (μ : σ → ℕ)
    (h : ∀ s e s', C s → E e → step s e = some s' → C s' ∧ μ s' < μ s) (hs : C s) :
    ¬Forever step E s := by
  intro hf
  obtain ⟨f, e, rfl, hstep⟩ := hf
  have hbound : ∀ n, C (f n) ∧ μ (f n) + n ≤ μ (f 0) := by
    intro n
    induction n with
    | zero => exact ⟨hs, Nat.le_refl _⟩
    | succ n ih =>
        obtain ⟨hC, hlt⟩ := h _ _ _ ih.1 (hstep n).1 (hstep n).2
        refine ⟨hC, ?_⟩
        omega
  have := (hbound (μ (f 0) + 1)).2
  omega

end Lib
