import Mathlib.Logic.Function.Basic
import Foxy.Lib.Run

/-!
# Foxy.Detail.TimedOp

`async_timer` (`foxy/detail/timed_op_wrapper_v3.hpp`): an operation of a session
wrapped with a wait on the session's timer.

All operations of a session share its one timer. `expires_after` and `cancel`
complete every wait that is outstanding on it with `operation_aborted`; when the
time is up every outstanding wait completes without error; a wait whose
completion is queued can no longer be changed. Handlers run one at a time, in
any order: an event of the machine is one of them running, or something
happening to the timer from outside.
-/

namespace Foxy.Detail

open Lib

/-- The wait an operation has on the timer: none, outstanding, or completed with
its handler queued. -/
inductive Wait
  | idle
  | armed
  | queued (aborted : Bool)
  deriving Repr, DecidableEq

/-- The `state` of one wrapped operation with result type `R`, and around it
what can be seen of the operation from outside. -/
structure TimedOp (R : Type*) where
  results : Option R := none
  done : Bool := false
  /-- `timer_coro.is_complete()`. -/
  coroComplete : Bool := false
  wait : Wait := .armed
  /-- The wrapped operation has delivered its results. -/
  completed : Bool := false
  /-- The calls of the user's handler. -/
  calls : List R := []
  /-- The wrapper closed the stream. -/
  closed : Bool := false
  /-- `results` was dereferenced while empty. -/
  fault : Bool := false

namespace TimedOp

variable {R : Type*}

/-- `*(p_->results)` handed to the user's handler. -/
def call (op : TimedOp R) : TimedOp R :=
  match op.results with
  | some r => { op with calls := op.calls ++ [r] }
  | none => { op with fault := true }

/-- `operator()(Args&&... args)`; whether it cancels the timer comes with it. -/
def onComplete (op : TimedOp R) (r : R) : TimedOp R × Bool :=
  let op := { op with completed := true, results := some r }
  if op.done then (op.call, false) else ({ op with done := true }, true)

/-- `operator()(on_timer_t, ec)`, with `aborted` for the error code; whether it
sets the timer anew and waits again comes with it. -/
def onTimer (op : TimedOp R) (aborted : Bool) : TimedOp R × Bool :=
  let op := { op with wait := .idle }
  if aborted && !op.done then (op, true)
  else
    let op := { op with coroComplete := true }
    if op.done then (op.call, false) else ({ op with done := true, closed := true }, false)

/-- The wait is aborted, if it is outstanding. -/
def abort (op : TimedOp R) : TimedOp R :=
  if op.wait = .armed then { op with wait := .queued true } else op

/-- The wait's time is up, if it is outstanding. -/
def expire (op : TimedOp R) : TimedOp R :=
  if op.wait = .armed then { op with wait := .queued false } else op

end TimedOp

/-- The operations of a session, those that were not initiated yet missing. -/
def Timed (ι R : Type*) := ι → Option (TimedOp R)

/-- What happens on a session. -/
inductive TimedEvent (ι R : Type*)
  /-- `async_timer` is called. -/
  | initiate (i : ι)
  /-- The wrapped operation delivers its results. -/
  | complete (i : ι) (r : R)
  /-- A queued timer handler runs. -/
  | timer (i : ι)
  /-- The timer's expiry is reached. -/
  | expire
  /-- `cancel` or `expires_after` is called from outside. -/
  | external

namespace Timed

variable {ι R : Type*} [DecidableEq ι]

/-- Every outstanding wait is aborted. -/
def abortAll (s : Timed ι R) : Timed ι R := fun i => (s i).map TimedOp.abort

/-- Every outstanding wait has expired. -/
def expireAll (s : Timed ι R) : Timed ι R := fun i => (s i).map TimedOp.expire

def set (s : Timed ι R) (i : ι) (op : TimedOp R) : Timed ι R := Function.update s i (some op)

def step (s : Timed ι R) : TimedEvent ι R → Option (Timed ι R)
  | .initiate i =>
    match s i with
    | none => some (s.abortAll.set i {})
    | some _ => none
  | .complete i r =>
    match s i with
    | none => none
    | some op =>
      if op.completed then none
      else
        let (op, cancel) := op.onComplete r
        some (if cancel then (s.set i op).abortAll else s.set i op)
  | .timer i =>
    match s i with
    | none => none
    | some op =>
      match op.wait with
      | .queued aborted =>
        let (op, again) := op.onTimer aborted
        some (if again then (s.set i op).abortAll.set i { op with wait := .armed } else s.set i op)
      | _ => none
  | .expire => some s.expireAll
  | .external => some s.abortAll

/-- A session without operations. -/
def init : Timed ι R := fun _ => none

end Timed

/-! ### The life of an operation -/

namespace TimedOp

variable {R : Type*}

/-- The four stages an operation can be in: neither side has finished, only the
wrapped operation has, only the timer has, or both and the handler was called. -/
inductive Stage : TimedOp R → Prop
  | running {w : Wait} (hw : w ≠ .idle) : Stage { wait := w }
  | answered {aborted : Bool} (r : R) :
      Stage { results := some r, done := true, wait := .queued aborted, completed := true }
  | expired : Stage { done := true, coroComplete := true, wait := .idle, closed := true }
  | called {closed : Bool} (r : R) :
      Stage { results := some r, done := true, coroComplete := true, wait := .idle,
              completed := true, calls := [r], closed := closed }

/-- Completing an outstanding wait, either way, leaves the stage. -/
theorem Stage.queue {op : TimedOp R} (h : Stage op) (aborted : Bool) :
    Stage (if op.wait = .armed then { op with wait := .queued aborted } else op) := by
  cases h with
  | @running w hw =>
      cases w with
      | idle => exact absurd rfl hw
      | armed => exact .running (by simp)
      | queued aborted => exact .running (by simp)
  | answered r => exact .answered r
  | expired => exact .expired
  | called r => exact .called r

theorem Stage.abort {op : TimedOp R} (h : Stage op) : Stage op.abort := h.queue true

theorem Stage.expire {op : TimedOp R} (h : Stage op) : Stage op.expire := h.queue false

/-- The results arrive: the handler is called if the timer has finished, else
its wait is called off. -/
theorem Stage.onComplete {op : TimedOp R} (h : Stage op) (hc : op.completed = false) (r : R) :
    Stage (if (op.onComplete r).2 then (op.onComplete r).1.abort else (op.onComplete r).1) := by
  cases h with
  | @running w hw =>
      cases w with
      | idle => exact absurd rfl hw
      | armed => exact .answered r
      | queued aborted => exact .answered r
  | answered r' => cases hc
  | expired => exact .called r
  | called r' => cases hc

/-- The timer handler runs: it waits again, calls the handler or closes the
stream. -/
theorem Stage.onTimer {op : TimedOp R} {aborted : Bool} (h : Stage op)
    (hw : op.wait = .queued aborted) :
    Stage (if (op.onTimer aborted).2 then { (op.onTimer aborted).1 with wait := .armed }
      else (op.onTimer aborted).1) := by
  cases h with
  | @running w _ =>
      cases aborted with
      | true => exact .running (by simp)
      | false => exact .expired
  | answered r => cases aborted <;> exact .called r
  | expired => cases hw
  | called r => cases hw

end TimedOp

namespace Timed

variable {ι R : Type*} [DecidableEq ι] {s s' : Timed ι R} {e : TimedEvent ι R}
  {tr : List (Timed ι R × TimedEvent ι R)}

/-- What one event can do to one operation. -/
inductive OpStep (i : ι) : TimedEvent ι R → Option (TimedOp R) → Option (TimedOp R) → Prop
  | absent {e : TimedEvent ι R} (he : ∀ r, e ≠ .complete i r) : OpStep i e none none
  | kept {e : TimedEvent ι R} {op : TimedOp R} (he : ∀ r, e ≠ .complete i r) :
      OpStep i e (some op) (some op)
  | aborted {e : TimedEvent ι R} {op : TimedOp R} (he : ∀ r, e ≠ .complete i r) :
      OpStep i e (some op) (some op.abort)
  | expired {op : TimedOp R} : OpStep i .expire (some op) (some op.expire)
  | initiated : OpStep i (.initiate i) none (some {})
  | completed {op : TimedOp R} {r : R} (hc : op.completed = false) :
      OpStep i (.complete i r) (some op)
        (some (if (op.onComplete r).2 then (op.onComplete r).1.abort else (op.onComplete r).1))
  | timer {op : TimedOp R} {a : Bool} (hw : op.wait = .queued a) :
      OpStep i (.timer i) (some op)
        (some (if (op.onTimer a).2 then { (op.onTimer a).1 with wait := .armed }
          else (op.onTimer a).1))

omit [DecidableEq ι] in
theorem opStep_abortAll {i : ι} {e : TimedEvent ι R} (he : ∀ r, e ≠ .complete i r) (s : Timed ι R) :
    OpStep i e (s i) (s.abortAll i) := by
  unfold abortAll
  cases s i with
  | none => exact .absent he
  | some op => exact .aborted he

omit [DecidableEq ι] in
theorem opStep_kept {i : ι} {e : TimedEvent ι R} (he : ∀ r, e ≠ .complete i r) (s : Timed ι R) :
    OpStep i e (s i) (s i) := by
  cases s i with
  | none => exact .absent he
  | some op => exact .kept he

theorem set_self (s : Timed ι R) (i : ι) (op : TimedOp R) : s.set i op i = some op :=
  Function.update_self _ _ _

theorem set_of_ne (s : Timed ι R) {i j : ι} (op : TimedOp R) (h : j ≠ i) : s.set i op j = s j :=
  Function.update_of_ne h _ _

theorem abortAll_set_of_ne (s : Timed ι R) {i j : ι} (op : TimedOp R) (h : j ≠ i) :
    (s.set i op).abortAll j = s.abortAll j := by
  simp [abortAll, set_of_ne _ _ h]

/-- A completion: the operation was not completed before, and it may cancel the
timer. -/
theorem step_complete_eq_some {i : ι} {r : R} (h : s.step (.complete i r) = some s') :
    ∃ op, s i = some op ∧ op.completed = false ∧
      s' = if (op.onComplete r).2 then (s.set i (op.onComplete r).1).abortAll
        else s.set i (op.onComplete r).1 := by
  simp only [step] at h
  cases hi : s i with
  | none => simp [hi] at h
  | some op =>
      simp only [hi] at h
      by_cases hc : op.completed = true
      · simp [hc] at h
      · rw [if_neg hc, Option.some.injEq] at h
        exact ⟨op, rfl, by simpa using hc, h.symm⟩

/-- A timer handler: its wait was over, and it may wait again. -/
theorem step_timer_eq_some {i : ι} (h : s.step (.timer i) = some s') :
    ∃ op a, s i = some op ∧ op.wait = .queued a ∧
      s' = if (op.onTimer a).2 then
          (s.set i (op.onTimer a).1).abortAll.set i { (op.onTimer a).1 with wait := .armed }
        else s.set i (op.onTimer a).1 := by
  simp only [step] at h
  cases hi : s i with
  | none => simp [hi] at h
  | some op =>
      simp only [hi] at h
      cases hw : op.wait with
      | idle => simp [hw] at h
      | armed => simp [hw] at h
      | queued a =>
          simp only [hw, Option.some.injEq] at h
          exact ⟨op, a, rfl, hw, h.symm⟩

/-- The step of the operation that completes, and of every other one. -/
theorem opStep_complete {i : ι} {r : R} (h : s.step (.complete i r) = some s') (j : ι) :
    OpStep j (.complete i r) (s j) (s' j) := by
  obtain ⟨op, hi, hc, rfl⟩ := step_complete_eq_some h
  by_cases hj : j = i
  · subst hj
    rw [hi]
    convert OpStep.completed hc using 1
    cases (op.onComplete r).2 <;> simp [abortAll, set_self]
  · have he : ∀ r', TimedEvent.complete (R := R) i r ≠ .complete j r' := by
      simp [Ne.symm hj]
    cases (op.onComplete r).2 with
    | false =>
        simp only [Bool.false_eq_true, if_false]
        rw [set_of_ne _ _ hj]
        exact opStep_kept he s
    | true =>
        simp only [if_true]
        rw [abortAll_set_of_ne _ _ hj]
        exact opStep_abortAll he s

/-- The step of the operation whose timer handler runs, and of every other one. -/
theorem opStep_timer {i : ι} (h : s.step (.timer i) = some s') (j : ι) :
    OpStep j (.timer i) (s j) (s' j) := by
  obtain ⟨op, a, hi, hw, rfl⟩ := step_timer_eq_some h
  by_cases hj : j = i
  · subst hj
    rw [hi]
    convert OpStep.timer hw using 1
    cases (op.onTimer a).2 <;> simp [set_self]
  · cases (op.onTimer a).2 with
    | false =>
        simp only [Bool.false_eq_true, if_false]
        rw [set_of_ne _ _ hj]
        exact opStep_kept (by simp) s
    | true =>
        simp only [if_true]
        rw [set_of_ne _ _ hj, abortAll_set_of_ne _ _ hj]
        exact opStep_abortAll (by simp) s

theorem step_op (h : s.step e = some s') (j : ι) : OpStep j e (s j) (s' j) := by
  cases e with
  | initiate i =>
      simp only [step] at h
      cases hi : s i with
      | some op => simp [hi] at h
      | none =>
          simp only [hi, Option.some.injEq] at h
          subst h
          by_cases hj : j = i
          · subst hj
            rw [hi, set_self]
            exact .initiated
          · rw [set_of_ne _ _ hj]
            exact opStep_abortAll (by simp) s
  | complete i r => exact opStep_complete h j
  | timer i => exact opStep_timer h j
  | expire =>
      simp only [step, Option.some.injEq] at h
      subst h
      unfold expireAll
      cases s j with
      | none => exact .absent (by simp)
      | some op => exact .expired
  | external =>
      simp only [step, Option.some.injEq] at h
      subst h
      exact opStep_abortAll (by simp) s

/-! ### The protocol -/

/-- What a run says about an operation: its results are those it was completed
with, and its outstanding wait expired before that if it is marked so. -/
structure Seen (i : ι) (tr : List (Timed ι R × TimedEvent ι R)) (op : TimedOp R) : Prop where
  stage : op.Stage
  answers : ∀ st r, (st, TimedEvent.complete i r) ∈ tr → op.completed = true ∧ op.results = some r
  answered : ∀ r, op.results = some r → ∃ st, (st, TimedEvent.complete i r) ∈ tr
  expiry : op.wait = .queued false ∨ op.closed = true →
    ∃ st op', (st, TimedEvent.expire) ∈ tr ∧ st i = some op' ∧ op'.wait = .armed ∧
      op'.completed = false

/-- The history of one operation of a session. -/
def History (i : ι) (tr : List (Timed ι R × TimedEvent ι R)) : Option (TimedOp R) → Prop
  | none => ∀ st r, (st, TimedEvent.complete i r) ∉ tr
  | some op => Seen i tr op

omit [DecidableEq ι] in
/-- An event that leaves an operation's results alone adds nothing to its
answers. -/
theorem Seen.snoc {i : ι} {op op' : TimedOp R} (h : Seen i tr op)
    (he : ∀ r, e ≠ .complete i r) (hstage : op'.Stage) (hc : op'.completed = op.completed)
    (hr : op'.results = op.results)
    (hx : op'.wait = .queued false ∨ op'.closed = true →
      (op.wait = .queued false ∨ op.closed = true) ∨
        (e = .expire ∧ s i = some op ∧ op.wait = .armed ∧ op.completed = false)) :
    Seen i (tr ++ [(s, e)]) op' := by
  refine ⟨hstage, ?_, ?_, ?_⟩
  · intro st r hmem
    rcases List.mem_append.1 hmem with hmem | hmem
    · rw [hc, hr]
      exact h.answers st r hmem
    · simp only [List.mem_singleton, Prod.mk.injEq] at hmem
      exact absurd hmem.2.symm (he r)
  · intro r hres
    rw [hr] at hres
    obtain ⟨st, hmem⟩ := h.answered r hres
    exact ⟨st, List.mem_append_left _ hmem⟩
  · intro hmark
    rcases hx hmark with hold | ⟨rfl, hs, harmed, hrun⟩
    · obtain ⟨st, op'', hmem, hst, hrun⟩ := h.expiry hold
      exact ⟨st, op'', List.mem_append_left _ hmem, hst, hrun⟩
    · exact ⟨s, op, by simp, hs, harmed, hrun⟩

omit [DecidableEq ι] in
theorem Seen.aborted {i : ι} {op : TimedOp R} (h : Seen i tr op) (he : ∀ r, e ≠ .complete i r) :
    Seen i (tr ++ [(s, e)]) op.abort := by
  have hsame : op.abort.completed = op.completed ∧ op.abort.results = op.results ∧
      op.abort.closed = op.closed ∧ (op.abort.wait = .queued false → op.wait = .queued false) := by
    unfold TimedOp.abort
    split <;> simp
  refine h.snoc he h.stage.abort hsame.1 hsame.2.1 ?_
  intro hcase
  rcases hcase with hw | hcl
  · exact Or.inl (Or.inl (hsame.2.2.2 hw))
  · exact Or.inl (Or.inr (by rw [← hsame.2.2.1]; exact hcl))

omit [DecidableEq ι] in
/-- Only a running operation has a wait that can expire. -/
theorem Seen.expired {i : ι} {op : TimedOp R} (h : Seen i tr op) (hs : s i = some op) :
    Seen i (tr ++ [(s, .expire)]) op.expire := by
  have hsame : op.expire.completed = op.completed ∧ op.expire.results = op.results ∧
      op.expire.closed = op.closed := by
    unfold TimedOp.expire
    split <;> simp
  refine h.snoc (by simp) h.stage.expire hsame.1 hsame.2.1 ?_
  intro hcase
  rcases hcase with hw | hcl
  · by_cases harmed : op.wait = .armed
    · refine Or.inr ⟨rfl, hs, harmed, ?_⟩
      have hstage := h.stage
      cases hstage with
      | running _ => rfl
      | answered r => cases harmed
      | expired => cases harmed
      | called r => cases harmed
    · rw [TimedOp.expire, if_neg harmed] at hw
      exact Or.inl (Or.inl hw)
  · exact Or.inl (Or.inr (by rw [← hsame.2.2]; exact hcl))

omit [DecidableEq ι] in
theorem Seen.completed {i : ι} {op : TimedOp R} {r : R} (h : Seen i tr op)
    (hc : op.completed = false) :
    Seen i (tr ++ [(s, .complete i r)])
      (if (op.onComplete r).2 then (op.onComplete r).1.abort else (op.onComplete r).1) := by
  have hstage := h.stage.onComplete hc r
  have hnone : ∀ st r', (st, TimedEvent.complete i r') ∉ tr := by
    intro st r' hmem
    have := (h.answers st r' hmem).1
    rw [hc] at this
    cases this
  -- whichever way it goes on, the results are the ones delivered
  have hres : ∀ op' : TimedOp R, op'.completed = true → op'.results = some r →
      op'.Stage → (op'.wait = .queued false ∨ op'.closed = true →
        op.wait = .queued false ∨ op.closed = true) → Seen i (tr ++ [(s, .complete i r)]) op' := by
    intro op' hcomp hresults hst hmark
    refine ⟨hst, ?_, ?_, ?_⟩
    · intro st r' hmem
      rcases List.mem_append.1 hmem with hmem | hmem
      · exact absurd hmem (hnone st r')
      · simp only [List.mem_singleton, Prod.mk.injEq, TimedEvent.complete.injEq, true_and] at hmem
        exact ⟨hcomp, by rw [hresults, hmem.2]⟩
    · intro r' hr'
      obtain rfl : r = r' := by simpa [hresults] using hr'
      exact ⟨s, by simp⟩
    · intro hm
      obtain ⟨st, op'', hmem, hst', hrun⟩ := h.expiry (hmark hm)
      exact ⟨st, op'', List.mem_append_left _ hmem, hst', hrun⟩
  cases hstage₀ : h.stage with
  | @running w hw =>
      cases w with
      | idle => exact absurd rfl hw
      | armed => exact hres _ rfl rfl hstage (by simp [TimedOp.onComplete, TimedOp.abort])
      | queued aborted => exact hres _ rfl rfl hstage (by simp [TimedOp.onComplete, TimedOp.abort])
  | answered r' => cases hc
  | expired => exact hres _ rfl rfl hstage (fun _ => Or.inr rfl)
  | called r' => cases hc

omit [DecidableEq ι] in
theorem Seen.timer {i : ι} {op : TimedOp R} {a : Bool} (h : Seen i tr op)
    (hw : op.wait = .queued a) :
    Seen i (tr ++ [(s, .timer i)])
      (if (op.onTimer a).2 then { (op.onTimer a).1 with wait := .armed } else (op.onTimer a).1) := by
  have hstage := h.stage.onTimer hw
  cases hstage₀ : h.stage with
  | @running w hne =>
      cases hw
      cases a with
      | true => exact h.snoc (by simp) hstage rfl rfl (by simp [TimedOp.onTimer])
      | false => exact h.snoc (by simp) hstage rfl rfl (fun _ => Or.inl (Or.inl rfl))
  | answered r =>
      cases hw
      cases a <;> exact h.snoc (by simp) hstage rfl rfl (by simp [TimedOp.onTimer, TimedOp.call])
  | expired => cases hw
  | called r => cases hw

theorem run_seen (h : Run step init tr s) (i : ι) : History i tr (s i) := by
  refine h.invariant (I := fun tr s => History i tr (s i)) (by simp [History, init]) ?_
  intro tr s e s' _ hist hs
  have hop := step_op hs i
  generalize hnow : s i = now at hist hop
  generalize s' i = next at hop
  cases hop with
  | absent he =>
      intro st r hmem
      rcases List.mem_append.1 hmem with hmem | hmem
      · exact hist st r hmem
      · simp only [List.mem_singleton, Prod.mk.injEq] at hmem
        exact he r hmem.2.symm
  | @kept _ op he => exact hist.snoc he hist.stage rfl rfl Or.inl
  | aborted he => exact hist.aborted he
  | expired => exact hist.expired hnow
  | initiated =>
      refine ⟨.running (by simp), ?_, by simp, by simp⟩
      intro st r hmem
      rcases List.mem_append.1 hmem with hmem | hmem
      · exact absurd hmem (hist st r)
      · simp at hmem
  | completed hc => exact hist.completed hc
  | timer hw => exact hist.timer hw

/-- The protocol of a timed operation, for every interleaving of completions,
timer handlers, expiries and calls on the timer from outside: the handler is
called at most once, and once when the operation and its wait have both been
delivered; it gets the operation's results; no wait of the operation is
outstanding then; the stream is closed only if the time of its wait was up
before the operation completed; and `results` is never dereferenced while
empty. -/
theorem run_protocol (h : Run step init tr s) {i : ι} {op : TimedOp R} (hop : s i = some op) :
    op.calls.length ≤ 1 ∧
      (op.completed = true → op.wait = .idle → op.calls.length = 1) ∧
      (∀ r ∈ op.calls, (∃ st, (st, TimedEvent.complete i r) ∈ tr) ∧
        ∀ st r', (st, TimedEvent.complete i r') ∈ tr → r' = r) ∧
      (op.calls ≠ [] → op.wait = .idle) ∧
      (op.closed = true → ∃ st op', (st, TimedEvent.expire) ∈ tr ∧ st i = some op' ∧
        op'.wait = .armed ∧ op'.completed = false) ∧
      op.fault = false := by
  have hseen : Seen i tr op := by
    have := run_seen h i
    rwa [hop] at this
  have hcalls : ∀ r ∈ op.calls, op.results = some r := by
    cases hseen.stage <;> simp
  refine ⟨?_, ?_, ?_, ?_, fun hcl => hseen.expiry (Or.inr hcl), ?_⟩
  · cases hseen.stage <;> simp
  · cases hseen.stage <;> simp
  · intro r hr
    have hres := hcalls r hr
    refine ⟨hseen.answered r hres, ?_⟩
    intro st r' hmem
    have := (hseen.answers st r' hmem).2
    rw [hres] at this
    exact (Option.some.inj this).symm
  · cases hseen.stage <;> simp
  · cases hseen.stage <;> rfl

/-- The time is up, the operation completes before the handler of its wait runs,
and then that handler calls the user's. -/
theorem run_protocol_late :
    ∃ (tr : List (Timed Nat Nat × TimedEvent Nat Nat)) (s : Timed Nat Nat) (op : TimedOp Nat),
      Run step init tr s ∧ s 0 = some op ∧ op.calls = [5] ∧ op.closed = false ∧
        op.calls.length ≤ 1 := by
  obtain ⟨tr, s, op, hex, hop, hcalls, hclosed⟩ :
      ∃ (tr : List (Timed Nat Nat × TimedEvent Nat Nat)) (s : Timed Nat Nat) (op : TimedOp Nat),
        exec step init [.initiate 0, .external, .timer 0, .expire, .complete 0 5, .timer 0] =
          some (tr, s) ∧ s 0 = some op ∧ op.calls = [5] ∧ op.closed = false :=
    ⟨_, _, _, rfl, rfl, rfl, rfl⟩
  have hrun := Run.of_exec hex
  exact ⟨tr, s, op, hrun, hop, hcalls, hclosed, (run_protocol hrun hop).1⟩

end Timed

end Foxy.Detail
