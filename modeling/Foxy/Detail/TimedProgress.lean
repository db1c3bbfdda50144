import Mathlib.Data.Set.Card
import Foxy.Detail.TimedOp

/-!
# Foxy.Detail.TimedProgress

Whether the timer handlers of a session come to rest.

A handler whose wait was aborted while its operation runs takes this for an
elongation and sets the timer anew. That aborts the waits of all other
operations, whose handlers then do the same. With a second operation waiting on
the timer the two go on for ever; without one, every handler that runs is a
queued completion less.
-/

namespace Foxy.Detail.Timed

open Lib

variable {ι R : Type*} [DecidableEq ι] {s s' : Timed ι R}
  {tr : List (Timed ι R × TimedEvent ι R)}

/-- Two operations that run and wait, one of them with its wait aborted. -/
def Contending (s : Timed ι R) : Prop :=
  ∃ i j op op', i ≠ j ∧ s i = some op ∧ s j = some op' ∧ op.done = false ∧ op'.done = false ∧
    op.wait = .queued true ∧ (op'.wait = .armed ∨ op'.wait = .queued true)

/-- The events that are a timer handler running. -/
def IsTimer (e : TimedEvent ι R) : Prop := ∃ i, e = .timer i

/-- What a timer handler does: it waits again, which aborts every other wait, or
it leaves the others alone. -/
theorem step_timer {k : ι} (h : s.step (.timer k) = some s') :
    ∃ op a, s k = some op ∧ op.wait = .queued a ∧
      ((a = true ∧ op.done = false ∧ s' k = some { op with wait := .armed } ∧
          ∀ j ≠ k, s' j = (s j).map TimedOp.abort) ∨
        ((a = true → op.done = true) ∧ (∃ op', s' k = some op' ∧ op'.wait = .idle) ∧
          ∀ j ≠ k, s' j = s j)) := by
  obtain ⟨op, a, hk, hw, rfl⟩ := step_timer_eq_some h
  refine ⟨op, a, hk, hw, ?_⟩
  by_cases hagain : (a && !op.done) = true
  · left
    have hot : op.onTimer a = ({ op with wait := .idle }, true) := by
      simp [TimedOp.onTimer, hagain]
    rw [hot]
    simp only [Bool.and_eq_true, Bool.not_eq_true'] at hagain
    refine ⟨hagain.1, hagain.2, set_self _ _ _, ?_⟩
    intro j hj
    simp [set_of_ne _ _ hj, abortAll]
  · right
    have hidle : (op.onTimer a).2 = false ∧ (op.onTimer a).1.wait = .idle := by
      simp only [TimedOp.onTimer, hagain]
      cases op.done with
      | false => exact ⟨rfl, rfl⟩
      | true =>
          simp only [TimedOp.call]
          cases op.results <;> exact ⟨rfl, rfl⟩
    simp only [hidle.1, Bool.false_eq_true, if_false]
    refine ⟨?_, ⟨_, set_self _ _ _, hidle.2⟩, fun j hj => set_of_ne _ _ hj⟩
    intro ha
    simpa [ha] using hagain

/-! ### Two operations never stop -/

/-- The operation whose wait was aborted waits again and aborts the other's. -/
theorem contending_step (h : Contending s) :
    ∃ e s', IsTimer e ∧ s.step e = some s' ∧ Contending s' := by
  obtain ⟨i, j, op, op', hij, hi, hj, hrun, hrun', hw, hw'⟩ := h
  have hstep : s.step (.timer i) =
      some ((s.set i { op with wait := .idle }).abortAll.set i { op with wait := .armed }) := by
    simp [step, hi, hw, TimedOp.onTimer, hrun]
  refine ⟨.timer i, _, ⟨i, rfl⟩, hstep, ?_⟩
  have habort : op'.abort.wait = .queued true ∧ op'.abort.done = false := by
    unfold TimedOp.abort
    rcases hw' with hw' | hw'
    · simp [hw', hrun']
    · simp [hw', hrun']
  refine ⟨j, i, op'.abort, { op with wait := .armed }, Ne.symm hij, ?_, set_self _ _ _, habort.2,
    hrun, habort.1, Or.inl rfl⟩
  simp [set_of_ne _ _ (Ne.symm hij), abortAll, hj]

/-! ### One does -/

/-- The operations whose wait has completed and whose handler is still to run. -/
def queued (s : Timed ι R) : Set ι := {i | ∃ op a, s i = some op ∧ op.wait = .queued a}

/-- A state in which every handler that runs brings the end closer. -/
structure Settling (s : Timed ι R) : Prop where
  quiet : ¬Contending s
  stages : ∀ i op, s i = some op → op.Stage
  finite : {i | s i ≠ none}.Finite

omit [DecidableEq ι] in
theorem queued_finite (h : {i | s i ≠ none}.Finite) : (queued s).Finite := by
  refine h.subset ?_
  intro i hi
  obtain ⟨op, a, hop, -⟩ := hi
  simp [hop]

/-- Only a running operation has a wait that is outstanding. -/
theorem running_of_armed {op : TimedOp R} (h : op.Stage) (hw : op.wait = .armed) :
    op.done = false := by
  cases h with
  | running _ => rfl
  | answered r => cases hw
  | expired => cases hw
  | called r => cases hw

theorem stages_step {e : TimedEvent ι R} (h : ∀ i op, s i = some op → op.Stage)
    (hs : s.step e = some s') : ∀ i op, s' i = some op → op.Stage := by
  intro i op hop
  have hstep := step_op hs i
  generalize hnow : s i = now at hstep
  rw [hop] at hstep
  cases hstep with
  | kept _ => exact h i op hnow
  | @aborted _ op₀ _ => exact (h i op₀ hnow).abort
  | @expired op₀ => exact (h i op₀ hnow).expire
  | initiated => exact .running (by simp)
  | @completed op₀ r hc => exact (h i op₀ hnow).onComplete hc r
  | @timer op₀ a hw => exact (h i op₀ hnow).onTimer hw

theorem finite_step {e : TimedEvent ι R} (h : {i | s i ≠ none}.Finite)
    (hs : s.step e = some s') : {i | s' i ≠ none}.Finite := by
  have hsub : {i | s' i ≠ none} ⊆ {i | s i ≠ none} ∪ {i | e = .initiate i} := by
    intro i hi
    have hstep := step_op hs i
    generalize hnow : s i = now at hstep
    generalize hnext : s' i = next at hstep
    cases hstep with
    | absent _ => exact absurd hnext hi
    | kept _ => exact Or.inl (by simp [hnow])
    | aborted _ => exact Or.inl (by simp [hnow])
    | expired => exact Or.inl (by simp [hnow])
    | initiated => exact Or.inr rfl
    | completed _ => exact Or.inl (by simp [hnow])
    | timer _ => exact Or.inl (by simp [hnow])
  refine (h.union ?_).subset hsub
  refine Set.Subsingleton.finite ?_
  intro i hi j hj
  exact TimedEvent.initiate.inj (Eq.trans (Eq.symm hi) hj)

omit [DecidableEq ι] in
/-- A handler that waits again is alone with its wait. -/
theorem Settling.abort_eq {k j : ι} {op : TimedOp R} (h : Settling s) (hk : s k = some op)
    (hrun : op.done = false) (hw : op.wait = .queued true) (hj : j ≠ k) :
    (s j).map TimedOp.abort = s j := by
  cases hs : s j with
  | none => rfl
  | some op' =>
      by_cases harmed : op'.wait = .armed
      · refine absurd ⟨k, j, op, op', Ne.symm hj, hk, hs, hrun, ?_, hw, Or.inl harmed⟩ h.quiet
        exact running_of_armed (h.stages j op' hs) harmed
      · simp [TimedOp.abort, harmed]

/-- Whichever way a handler goes on, its operation has nothing queued any more
and the others are as they were. -/
theorem Settling.step_timer_eq {k : ι} (h : Settling s) (hs : s.step (.timer k) = some s') :
    k ∈ queued s ∧ (∃ op', s' k = some op' ∧ ∀ a, op'.wait ≠ .queued a) ∧ (∀ j ≠ k, s' j = s j) ∧
      ((∃ op', s' k = some op' ∧ op'.wait = .armed) →
        ∃ op, s k = some op ∧ op.done = false ∧ op.wait = .queued true) := by
  obtain ⟨op, a, hk, hw, hcase⟩ := step_timer hs
  rcases hcase with ⟨rfl, hrun, hk', hothers⟩ | ⟨-, ⟨op', hk', hidle⟩, hothers⟩
  · refine ⟨⟨op, true, hk, hw⟩, ⟨_, hk', by simp⟩, ?_, fun _ => ⟨op, hk, hrun, hw⟩⟩
    intro j hj
    rw [hothers j hj]
    exact h.abort_eq hk hrun hw hj
  · refine ⟨⟨op, a, hk, hw⟩, ⟨op', hk', by simp [hidle]⟩, hothers, ?_⟩
    intro harmed
    obtain ⟨op'', hk'', harmed⟩ := harmed
    obtain rfl : op' = op'' := by simpa [hk'] using hk''
    rw [hidle] at harmed
    cases harmed

theorem Settling.step {e : TimedEvent ι R} (h : Settling s) (he : IsTimer e)
    (hs : s.step e = some s') : Settling s' ∧ (queued s').ncard < (queued s).ncard := by
  obtain ⟨k, rfl⟩ := he
  obtain ⟨hk, ⟨opk, hk', hnot⟩, hothers, harmed⟩ := h.step_timer_eq hs
  refine ⟨⟨?_, stages_step h.stages hs, finite_step h.finite hs⟩, ?_⟩
  · intro hc
    obtain ⟨i, j, op, op', hij, hi, hj, hrun, hrun', hw, hw'⟩ := hc
    have hik : i ≠ k := by
      intro hik
      subst hik
      obtain rfl : opk = op := by simpa [hk'] using hi
      exact hnot true hw
    rw [hothers i hik] at hi
    by_cases hjk : j = k
    · -- the second of them is the one that waits again
      subst hjk
      obtain rfl : opk = op' := by simpa [hk'] using hj
      have hwj : opk.wait = .armed := hw'.resolve_right (hnot true)
      obtain ⟨opj, hj₀, hrunj, hwj₀⟩ := harmed ⟨opk, hk', hwj⟩
      exact h.quiet ⟨j, i, opj, op, Ne.symm hij, hj₀, hi, hrunj, hrun, hwj₀, Or.inr hw⟩
    · rw [hothers j hjk] at hj
      exact h.quiet ⟨i, j, op, op', hij, hi, hj, hrun, hrun', hw, hw'⟩
  · refine Set.ncard_lt_ncard ?_ (queued_finite h.finite)
    have hk'' : k ∉ queued s' := by
      intro hmem
      obtain ⟨op, a, hop, hw⟩ := hmem
      obtain rfl : opk = op := by simpa [hk'] using hop
      exact hnot a hw
    refine (Set.ssubset_iff_of_subset ?_).2 ⟨k, hk, hk''⟩
    intro i hi
    have hik : i ≠ k := fun heq => hk'' (heq ▸ hi)
    obtain ⟨op, a, hop, hw⟩ := hi
    rw [hothers i hik] at hop
    exact ⟨op, a, hop, hw⟩

theorem run_settling (h : Run step init tr s) (hc : ¬Contending s) : Settling s := by
  have hstages : ∀ i op, s i = some op → op.Stage := by
    intro i op hop
    have hist := run_seen h i
    rw [hop] at hist
    exact hist.stage
  have hfinite : {i | s i ≠ none}.Finite := by
    refine h.invariant (I := fun _ s => {i | s i ≠ none}.Finite) (by simp [init]) ?_
    intro tr s e s' _ hfin hs
    exact finite_step hfin hs
  exact ⟨hc, hstages, hfinite⟩

/-- From a reachable state the timer handlers alone come to an end, in whatever
order they run, exactly when no two running operations wait on the timer with
the wait of one of them aborted. -/
theorem run_progress_iff (h : Run step init tr s) :
    ¬Forever step IsTimer s ↔ ¬Contending s := by
  constructor
  · intro hstops hc
    exact hstops (forever_of_step (fun s hs => contending_step hs) hc)
  · intro hc
    exact not_forever_of_measure (fun s => (queued s).ncard)
      (fun s e s' hs he hstep => Settling.step hs he hstep) (run_settling h hc)

/-- Two operations at once, of which one has delivered its results: both handlers are
queued, and only the other one waits again. -/
theorem run_progress_answered :
    ∃ (tr : List (Timed Nat Nat × TimedEvent Nat Nat)) (s : Timed Nat Nat) (op op' : TimedOp Nat),
      Run step init tr s ∧ tr.map Prod.snd = [.initiate 0, .initiate 1, .complete 0 7] ∧
        (s 0 = some op ∧ op.done = true ∧ op.wait = .queued true) ∧
        (s 1 = some op' ∧ op'.done = false ∧ op'.wait = .queued true) ∧
        ¬Forever step IsTimer s := by
  obtain ⟨tr, s, op, op', first, hex, htr, hop, hop', hs⟩ :
      ∃ (tr : List (Timed Nat Nat × TimedEvent Nat Nat)) (s : Timed Nat Nat)
        (op op' first : TimedOp Nat),
        exec step init [.initiate 0, .initiate 1, .complete 0 7] = some (tr, s) ∧
          tr.map Prod.snd = [.initiate 0, .initiate 1, .complete 0 7] ∧
          (s 0 = some op ∧ op.done = true ∧ op.wait = .queued true) ∧
          (s 1 = some op' ∧ op'.done = false ∧ op'.wait = .queued true) ∧
          s = (((init.abortAll.set 0 {}).abortAll.set 1 {}).set 0 first).abortAll :=
    ⟨_, _, _, _, _, rfl, rfl, ⟨rfl, rfl, rfl⟩, ⟨rfl, rfl, rfl⟩, rfl⟩
  have hrun := Run.of_exec hex
  refine ⟨tr, s, op, op', hrun, htr, hop, hop', (run_progress_iff hrun).2 ?_⟩
  -- what still runs can only be the second one
  have hrunning (i : Nat) (o : TimedOp Nat) (hi : s i = some o) (hdone : o.done = false) : i = 1 := by
    by_contra hne
    by_cases h0 : i = 0
    · rw [h0, hop.1] at hi
      rw [← Option.some.inj hi, hop.2.1] at hdone
      cases hdone
    · simp [hs, abortAll, set_of_ne _ _ h0, set_of_ne _ _ hne, init] at hi
  intro hc
  obtain ⟨i, j, o, o', hij, hi, hj, hdone, hdone', -⟩ := hc
  exact hij ((hrunning i o hi hdone).trans (hrunning j o' hj hdone').symm)

/-- A read and a write at once: their handlers keep each other going. -/
theorem run_progress_two :
    ∃ (tr : List (Timed Nat Nat × TimedEvent Nat Nat)) (s : Timed Nat Nat),
      Run step init tr s ∧ tr.map Prod.snd = [.initiate 0, .initiate 1] ∧
        Forever step IsTimer s := by
  obtain ⟨tr, s, op, op', hex, htr, h0, h1, hop, hop'⟩ :
      ∃ (tr : List (Timed Nat Nat × TimedEvent Nat Nat)) (s : Timed Nat Nat) (op op' : TimedOp Nat),
        exec step init [.initiate 0, .initiate 1] = some (tr, s) ∧
          tr.map Prod.snd = [.initiate 0, .initiate 1] ∧ s 0 = some op ∧ s 1 = some op' ∧
          (op.done = false ∧ op.wait = .queued true) ∧ op'.done = false ∧ op'.wait = .armed :=
    ⟨_, _, _, _, rfl, rfl, rfl, rfl, ⟨rfl, rfl⟩, rfl, rfl⟩
  have hc : Contending s :=
    ⟨0, 1, op, op', by decide, h0, h1, hop.1, hop'.1, hop.2, Or.inl hop'.2⟩
  exact ⟨tr, s, Run.of_exec hex, htr, forever_of_step (fun s hs => contending_step hs) hc⟩

end Foxy.Detail.Timed
