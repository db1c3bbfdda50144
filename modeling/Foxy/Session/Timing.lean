import Foxy.Detail.TimedOp
import Foxy.Session.Client

/-!
# Foxy.Session.Timing

`async_timer` at its two levels. `Foxy.Detail.TimedOp` has the waits on the timer,
their handlers and the flags of `async_timer_initiation`; `asyncTimer` has no
more than a time that may run out once. Here a routine runs under the former,
and what it can do is what the latter says.

All handlers run one at a time: that of the timer runs while the routine waits
for an operation, or for the handler of one.
-/

namespace Foxy.Session

open Lib Detail

/-- A routine and the timed operation made for it. -/
structure TimedRoutine where
  routine : Coroutine Session SessionOp Answer Outcome
  timed : Timed Unit Answer

inductive TimingEvent
  /-- The operation the routine waits for completes. -/
  | complete (a : Answer)
  /-- Its handler runs. -/
  | deliver
  /-- The handler of the wait on the timer runs. -/
  | timer
  /-- The timer's expiry is reached. -/
  | expire
  /-- `cancel` or `expires_after` is called from outside. -/
  | external
  deriving Repr, DecidableEq

namespace TimedRoutine

/-- A routine that has completed hands its results to the timed operation. -/
def settle (c : Coroutine Session SessionOp Answer Outcome) (timed : Timed Unit Answer) :
    Option TimedRoutine :=
  match c.result with
  | some (.completed a) =>
    (timed.step (.complete () a)).map fun timed => ⟨{ c with world := c.world.disarm }, timed⟩
  | _ => some ⟨c, timed⟩

/-- `async_timer(p, session, ...)`: the timer is set and `p` begins. -/
def start (s : Session) (p : Routine Outcome) : Option TimedRoutine :=
  (Timed.init.step (.initiate ())).bind (settle (net.enter s.arm p))

/-- `close(stream)`, with the routine where it is. -/
def close (c : Coroutine Session SessionOp Answer Outcome) :
    Coroutine Session SessionOp Answer Outcome :=
  match c.frame with
  | .finished _ => c
  | .pending op _ => { c with world := c.world.expire op }
  | .answered op a k => ⟨c.world.expire op, .answered op (lateAnswer op a) k⟩

/-- The handler of another operation can run: nothing is being done on the spot,
and no exception has ended the program. -/
def interruptible (c : Coroutine Session SessionOp Answer Outcome) : Bool :=
  match c.frame with
  | .finished (.completed _) => true
  | .finished _ => false
  | .pending op _ | .answered op _ _ => op.isAsync

/-- The wrapper has closed the stream. -/
def isClosed (timed : Timed Unit Answer) : Bool :=
  match timed () with
  | some op => op.closed
  | none => false

def step (t : TimedRoutine) : TimingEvent → Option TimedRoutine
  | .complete a => (net.step t.routine (.complete a)).map fun c => { t with routine := c }
  | .deliver => (net.step t.routine .deliver).bind fun c => settle c t.timed
  | .timer =>
    if interruptible t.routine then
      (t.timed.step (.timer ())).map fun timed =>
        ⟨if isClosed timed && !isClosed t.timed then close t.routine else t.routine, timed⟩
    else none
  | .expire => (t.timed.step .expire).map fun timed => { t with timed }
  | .external => (t.timed.step .external).map fun timed => { t with timed }

/-- The calls of the user's handler. -/
def calls (t : TimedRoutine) : List Answer :=
  match t.timed () with
  | some op => op.calls
  | none => []

/-- What can come of `async_timer(p, session, ...)`. -/
def Reaches (s : Session) (p : Routine Outcome) (t : TimedRoutine) : Prop :=
  ∃ t₀ tr, start s p = some t₀ ∧ Run step t₀ tr t

/-- The routine leaves the timer to `async_timer`. -/
def Untimed : Routine Outcome → Prop
  | .done _ => True
  | .sync f k => (∀ s, (f s).timer = s.timer) ∧ ∀ s, Untimed (k s)
  | .call _ k => ∀ a, Untimed (k a)

/-- What `asyncTimer` does behind the routine. -/
def afterTimer : Outcome → Routine Outcome
  | .completed a => .modify disarm (.done (.completed a))
  | o => .done o

theorem asyncTimer_eq (p : Routine Outcome) : asyncTimer p = .modify arm (p.bind afterTimer) := by
  unfold asyncTimer
  congr 2

theorem enter_asyncTimer (s : Session) (p : Routine Outcome) :
    net.enter s (asyncTimer p) = net.goOn (net.enter s.arm p) afterTimer := by
  rw [asyncTimer_eq]
  exact Surroundings.enter_bind s.arm p afterTimer

/-! ### What the two levels have in common -/

/-- The rest of a routine leaves the timer alone. -/
def UntimedRest (c : Coroutine Session SessionOp Answer Outcome) : Prop :=
  match c.frame with
  | .finished _ => True
  | .pending _ k | .answered _ _ k => ∀ a, Untimed (k a)

variable {s w : Session} {p : Routine Outcome} {t t' : TimedRoutine} {op : TimedOp Answer}
  {c c' : Coroutine Session SessionOp Answer Outcome} {timed : Timed Unit Answer} {a : Answer}

theorem enter_untimed (hp : Untimed p) (s : Session) :
    (net.enter s p).world.timer = s.timer ∧ UntimedRest (net.enter s p) := by
  induction p generalizing s with
  | done o => exact ⟨rfl, trivial⟩
  | sync f k ih =>
      obtain ⟨hf, hk⟩ := hp
      obtain ⟨htimer, hrest⟩ := ih _ (hk (f s)) (f s)
      exact ⟨htimer.trans (hf s), hrest⟩
  | call op k => exact ⟨initiate_timer s op, hp⟩

/-- A routine under its timed operation: as long as it has not completed, neither
has the operation, and the session's timer says whether the stream was closed. -/
structure Kept (t : TimedRoutine) (op : TimedOp Answer) : Prop where
  timed : t.timed () = some op
  stage : op.Stage
  running : (∀ a, t.routine.result ≠ some (.completed a)) → op.completed = false
  completed : ∀ a, t.routine.result = some (.completed a) →
    op.results = some a ∧ t.routine.world.timer = .idle
  timer : t.routine.result = none →
    t.routine.world.timer = if op.closed then .expired else .armed
  rest : UntimedRest t.routine

/-- The routine as `asyncTimer` has it. -/
def view (t : TimedRoutine) : Coroutine Session SessionOp Answer Outcome :=
  net.goOn t.routine afterTimer

theorem disarm_of_idle (h : w.timer = .idle) : w.disarm = w := by
  obtain ⟨opts, stream, buffer, timer, log, expiredIn, parsed⟩ := w
  obtain rfl : timer = .idle := h
  rfl

theorem Kept.view_world (h : Kept t op) : (view t).world = t.routine.world := by
  obtain ⟨⟨w, frame⟩, timed⟩ := t
  cases frame with
  | pending op k => rfl
  | answered op a k => rfl
  | finished o =>
      cases o with
      | completed a => exact disarm_of_idle (h.completed a rfl).2
      | threw ec => rfl
      | terminated => rfl

theorem view_result (t : TimedRoutine) : (view t).result = t.routine.result := by
  obtain ⟨⟨w, frame⟩, timed⟩ := t
  cases frame with
  | pending op k => rfl
  | answered op a k => rfl
  | finished o => cases o <;> rfl

theorem completed_of_results (hstage : op.Stage) (h : op.results = some a) :
    op.completed = true := by
  cases hstage with
  | running hw => cases h
  | answered r => rfl
  | expired => cases h
  | called r => rfl

/-- The results arrive at an operation that is not through. -/
theorem step_complete (htimed : timed () = some op) (hstage : op.Stage)
    (hrun : op.completed = false) (a : Answer) :
    ∃ timed' op', timed.step (.complete () a) = some timed' ∧ timed' () = some op' ∧
      op'.Stage ∧ op'.results = some a := by
  have hsome : ∃ timed', timed.step (.complete () a) = some timed' := by
    simp [Timed.step, htimed, hrun]
  obtain ⟨timed', hs⟩ := hsome
  obtain ⟨op₁, hop₁, -, hnext⟩ := Timed.step_complete_eq_some hs
  obtain rfl : op = op₁ := Option.some.inj (htimed.symm.trans hop₁)
  refine ⟨timed', _, hs, ?_, hstage.onComplete hrun a, ?_⟩
  · rw [hnext]
    split <;> simp [Timed.abortAll, Timed.set_self]
  · cases hstage with
    | @running w hw => cases w <;> rfl
    | answered r => cases hrun
    | expired => rfl
    | called r => cases hrun

/-- A routine that has just stopped, under an operation that is not through. -/
theorem settle_kept (htimed : timed () = some op) (hstage : op.Stage)
    (hrun : op.completed = false)
    (htimer : c.world.timer = if op.closed then .expired else .armed) (hrest : UntimedRest c) :
    ∃ t op', settle c timed = some t ∧ Kept t op' ∧ view t = net.goOn c afterTimer ∧
      (t.routine.result = none → op' = op) := by
  obtain ⟨w, frame⟩ := c
  have hkept : ∀ frame : Frame Session SessionOp Answer Outcome,
      (∀ a, (⟨w, frame⟩ : Coroutine Session SessionOp Answer Outcome).result ≠
        some (.completed a)) → UntimedRest ⟨w, frame⟩ → Kept ⟨⟨w, frame⟩, timed⟩ op := by
    intro frame hno hrest
    exact ⟨htimed, hstage, fun _ => hrun, fun a ha => absurd ha (hno a), fun _ => htimer, hrest⟩
  cases frame with
  | pending o k => exact ⟨_, op, rfl, hkept _ (by simp [Coroutine.result]) hrest, rfl, fun _ => rfl⟩
  | answered o a k =>
      exact ⟨_, op, rfl, hkept _ (by simp [Coroutine.result]) hrest, rfl, fun _ => rfl⟩
  | finished o =>
      cases o with
      | threw ec => exact ⟨_, op, rfl, hkept _ (by simp [Coroutine.result]) hrest, rfl, fun _ => rfl⟩
      | terminated =>
          exact ⟨_, op, rfl, hkept _ (by simp [Coroutine.result]) hrest, rfl, fun _ => rfl⟩
      | completed a =>
          obtain ⟨timed', op', hs, hnow, hstage', hresults⟩ := step_complete htimed hstage hrun a
          refine ⟨⟨⟨w.disarm, .finished (.completed a)⟩, timed'⟩, op', ?_, ?_, rfl, ?_⟩
          · simp [settle, Coroutine.result, hs]
          · refine ⟨hnow, hstage', ?_, ?_, ?_, trivial⟩
            · intro h
              exact absurd rfl (h a)
            · intro b hb
              obtain rfl : a = b := by simpa [Coroutine.result] using hb
              exact ⟨hresults, rfl⟩
            · intro h
              cases h
          · intro h
            cases h

/-! ### One step -/

/-- The operation of a routine completes. -/
theorem complete_routine (hs : net.step c (.complete a) = some c') :
    c.result = none ∧ c'.result = none ∧ c'.world.timer = c.world.timer ∧
      (UntimedRest c → UntimedRest c') := by
  obtain ⟨w, frame⟩ := c
  cases frame with
  | finished o => cases hs
  | answered op b k => cases hs
  | pending op k =>
      obtain ⟨w', hc, rfl⟩ := Option.map_eq_some_iff.1 hs
      by_cases ha : w.allows op a = true
      · have hw : w.effect op a = w' := by simpa [net, ha] using hc
        exact ⟨rfl, rfl, by simp [← hw], fun h => h⟩
      · simp [net, ha] at hc

/-- Its handler runs, and the routine goes on to its next operation or its end. -/
theorem deliver_routine (hs : net.step c .deliver = some c') (hrest : UntimedRest c) :
    c.result = none ∧ c'.world.timer = c.world.timer ∧ UntimedRest c' := by
  obtain ⟨w, frame⟩ := c
  cases frame with
  | finished o => cases hs
  | pending op k => cases hs
  | answered op b k =>
      obtain rfl := Option.some.inj hs
      exact ⟨rfl, enter_untimed (hrest b) w⟩

/-- The stream is closed under a routine that waits. -/
theorem close_routine (hrun : c.result = none) (hint : interruptible c = true)
    (htimer : c.world.timer = .armed) :
    net.step c (.disturb ()) = some (close c) ∧ (close c).result = none ∧
      (close c).world.timer = .expired ∧ (UntimedRest c → UntimedRest (close c)) := by
  obtain ⟨w, frame⟩ := c
  cases frame with
  | finished o => cases hrun
  | pending op k =>
      have hop : op.isAsync = true := hint
      have htimer : w.timer = .armed := htimer
      exact ⟨by simp [Surroundings.step, net, mayExpire, hop, htimer, close], rfl, rfl, fun h => h⟩
  | answered op b k =>
      have hop : op.isAsync = true := hint
      have htimer : w.timer = .armed := htimer
      exact ⟨by simp [Surroundings.step, net, mayExpire, hop, htimer, close], rfl, rfl, fun h => h⟩

/-- Only a routine that waits can be disturbed, and only with the timer set. -/
theorem disturb_routine (hs : net.step c (.disturb ()) = some c') :
    interruptible c = true ∧ c.world.timer = .armed := by
  have hmay : ∀ op, mayExpire c.world op = true →
      op.isAsync = true ∧ c.world.timer = .armed := by
    intro op h
    simpa [mayExpire] using h
  obtain ⟨w, frame⟩ := c
  cases frame with
  | finished o => cases hs
  | pending op k =>
      obtain ⟨w', hw, rfl⟩ := Option.map_eq_some_iff.1 hs
      by_cases h : w.mayExpire op = true
      · exact hmay op h
      · simp [net, h] at hw
  | answered op a k =>
      obtain ⟨r, hw, rfl⟩ := Option.map_eq_some_iff.1 hs
      by_cases h : w.mayExpire op = true
      · exact hmay op h
      · simp [net, h] at hw

/-- A routine that was not finished and can be interrupted waits. -/
theorem result_of_interruptible (hint : interruptible c = true)
    (h : ∀ a, c.result ≠ some (.completed a)) : c.result = none := by
  obtain ⟨w, frame⟩ := c
  cases frame with
  | pending op k => rfl
  | answered op b k => rfl
  | finished o =>
      cases o with
      | completed a => exact absurd rfl (h a)
      | threw ec => cases hint
      | terminated => cases hint

/-- The handler of the wait runs: if anything comes of it, the stream is closed
under an operation that is not through. -/
theorem timer_timed (htimed : timed () = some op) (hstage : op.Stage) {timed' : Timed Unit Answer}
    (hs : timed.step (.timer ()) = some timed') :
    ∃ op', timed' () = some op' ∧ op'.Stage ∧ op'.completed = op.completed ∧
      op'.results = op.results ∧
        (op'.closed = op.closed ∨ op.completed = false ∧ op.closed = false ∧ op'.closed = true) := by
  obtain ⟨op₁, aborted, hop₁, hw, hnext⟩ := Timed.step_timer_eq_some hs
  obtain rfl : op = op₁ := Option.some.inj (htimed.symm.trans hop₁)
  refine ⟨_, ?_, hstage.onTimer hw, ?_⟩
  · rw [hnext]
    split <;> simp [Timed.set_self]
  · cases hstage with
    | @running w _ =>
        cases hw
        cases aborted with
        | true => exact ⟨rfl, rfl, Or.inl rfl⟩
        | false => exact ⟨rfl, rfl, Or.inr ⟨rfl, rfl, rfl⟩⟩
    | answered r =>
        cases hw
        cases aborted <;> exact ⟨rfl, rfl, Or.inl rfl⟩
    | expired => cases hw
    | called r => cases hw

/-- Nothing but the wait has changed. -/
theorem Kept.of_same {op' : TimedOp Answer} (h : Kept t op) (htimed : timed () = some op')
    (hstage : op'.Stage) (hc : op'.completed = op.completed) (hr : op'.results = op.results)
    (hcl : op'.closed = op.closed) : Kept { t with timed } op' := by
  refine ⟨htimed, hstage, ?_, ?_, ?_, h.rest⟩
  · intro hno
    rw [hc]
    exact h.running hno
  · intro a ha
    rw [hr]
    exact h.completed a ha
  · intro hno
    rw [hcl]
    exact h.timer hno

/-- One step under `async_timer` is one of `asyncTimer`, or none. -/
theorem step_view {e : TimingEvent} (h : Kept t op) (hs : step t e = some t') :
    (∃ op', Kept t' op') ∧ (view t' = view t ∨ ∃ e', net.step (view t) e' = some (view t')) := by
  cases e with
  | complete a =>
      obtain ⟨c', hc, rfl⟩ := Option.map_eq_some_iff.1 hs
      obtain ⟨hrun, hrun', htimer, hrest⟩ := complete_routine hc
      refine ⟨⟨op, h.timed, h.stage, ?_, ?_, ?_, hrest h.rest⟩, Or.inr ⟨.complete a, ?_⟩⟩
      · intro _
        exact h.running (by simp [hrun])
      · intro b hb
        rw [hrun'] at hb
        cases hb
      · intro _
        rw [htimer]
        exact h.timer hrun
      · rw [view, Surroundings.step_goOn hrun, hc]
        rfl
  | deliver =>
      obtain ⟨c', hc, hsettle⟩ := Option.bind_eq_some_iff.1 hs
      obtain ⟨hrun, htimer, hrest⟩ := deliver_routine hc h.rest
      obtain ⟨t₁, op', hsettle', hkept, hview, -⟩ := settle_kept h.timed h.stage
        (h.running (by simp [hrun])) (htimer.trans (h.timer hrun)) hrest
      obtain rfl : t₁ = t' := Option.some.inj (hsettle'.symm.trans hsettle)
      refine ⟨⟨op', hkept⟩, Or.inr ⟨.deliver, ?_⟩⟩
      rw [hview, view, Surroundings.step_goOn hrun, hc]
      rfl
  | timer =>
      simp only [step] at hs
      split at hs
      · rename_i hint
        obtain ⟨timed', ht, rfl⟩ := Option.map_eq_some_iff.1 hs
        obtain ⟨op', htimed, hstage, hcomp, hres, hcl⟩ := timer_timed h.timed h.stage ht
        rcases hcl with hcl | ⟨hcomp', hcl, hcl'⟩
        · have hno : (isClosed timed' && !isClosed t.timed) = false := by
            simp [isClosed, htimed, h.timed, hcl]
          rw [hno]
          exact ⟨⟨op', h.of_same htimed hstage hcomp hres hcl⟩, Or.inl rfl⟩
        · have hyes : (isClosed timed' && !isClosed t.timed) = true := by
            simp [isClosed, htimed, h.timed, hcl, hcl']
          rw [hyes]
          have hrun : t.routine.result = none := by
            refine result_of_interruptible hint ?_
            intro a ha
            have hdone := completed_of_results h.stage (h.completed a ha).1
            rw [hcomp'] at hdone
            cases hdone
          have htimer : t.routine.world.timer = .armed := by simp [h.timer hrun, hcl]
          obtain ⟨hstep, hrun', htimer', hrest⟩ := close_routine hrun hint htimer
          refine ⟨⟨op', htimed, hstage, ?_, ?_, ?_, hrest h.rest⟩, Or.inr ⟨.disturb (), ?_⟩⟩
          · intro _
            rw [hcomp, hcomp']
          · intro a ha
            have ha : (close t.routine).result = some (.completed a) := ha
            rw [hrun'] at ha
            cases ha
          · intro _
            rw [hcl']
            exact htimer'
          · rw [view, Surroundings.step_goOn hrun, hstep]
            rfl
      · cases hs
  | expire =>
      obtain rfl := Option.some.inj hs
      have hnow : t.timed.expireAll () = some op.expire := by simp [Timed.expireAll, h.timed]
      refine ⟨⟨_, h.of_same hnow h.stage.expire ?_ ?_ ?_⟩, Or.inl rfl⟩
      all_goals
        unfold TimedOp.expire
        split <;> rfl
  | external =>
      obtain rfl := Option.some.inj hs
      have hnow : t.timed.abortAll () = some op.abort := by simp [Timed.abortAll, h.timed]
      refine ⟨⟨_, h.of_same hnow h.stage.abort ?_ ?_ ?_⟩, Or.inl rfl⟩
      all_goals
        unfold TimedOp.abort
        split <;> rfl

/-! ### Runs -/

theorem start_kept (hp : Untimed p) (s : Session) :
    ∃ t₀ op, start s p = some t₀ ∧ Kept t₀ op ∧ view t₀ = net.enter s (asyncTimer p) ∧
      (t₀.routine.result = none → op = {}) := by
  obtain ⟨htimer, hrest⟩ := enter_untimed hp s.arm
  have hstage : ({} : TimedOp Answer).Stage := .running (by simp)
  have hnow : (Timed.init.abortAll.set () {} : Timed Unit Answer) () = some {} := Timed.set_self _ _ _
  obtain ⟨t₀, op, hsettle, hkept, hview, hop⟩ := settle_kept hnow hstage rfl htimer hrest
  exact ⟨t₀, op, hsettle, hkept, hview.trans (enter_asyncTimer s p).symm, hop⟩

/-- A routine under `async_timer` and its view. -/
def Viewed (t : TimedRoutine) (c : Coroutine Session SessionOp Answer Outcome) : Prop :=
  (∃ op, Kept t op) ∧ view t = c

theorem viewed_step {e : TimingEvent} (h : Viewed t c) (hs : step t e = some t') :
    ∃ tr c', Run net.step c tr c' ∧ Viewed t' c' := by
  obtain ⟨⟨op, hkept⟩, rfl⟩ := h
  obtain ⟨hkept', hview⟩ := step_view hkept hs
  rcases hview with hview | ⟨e', hs'⟩
  · exact ⟨[], view t, .nil, hkept', hview⟩
  · exact ⟨_, view t', .snoc .nil hs', hkept', rfl⟩

/-- What a routine does under `async_timer`, `asyncTimer` does. -/
theorem reaches_view (hp : Untimed p) (h : Reaches s p t) :
    ∃ op tr, Kept t op ∧ Run net.step (net.enter s (asyncTimer p)) tr (view t) := by
  obtain ⟨t₀, tr, hstart, hr⟩ := h
  obtain ⟨t₁, op₁, hstart', hkept₁, hview₁, -⟩ := start_kept hp s
  obtain rfl : t₀ = t₁ := Option.some.inj (hstart.symm.trans hstart')
  have hviewed : Viewed t₀ (net.enter s (asyncTimer p)) := ⟨⟨op₁, hkept₁⟩, hview₁⟩
  obtain ⟨tr', c, hr', ⟨op, hkept⟩, rfl⟩ :=
    hr.simulate (R := Viewed) hviewed fun _ _ _ _ hR hs => viewed_step hR hs
  exact ⟨op, tr', hkept, hr'⟩

/-- A routine with its wait outstanding, unless the stream is closed. -/
def Ready (c : Coroutine Session SessionOp Answer Outcome) (t : TimedRoutine) : Prop :=
  ∃ op, Kept t op ∧ view t = c ∧
    (t.routine.result = none → op.closed = true ∨ op.wait = .armed)

/-- The time runs out under a routine whose wait is outstanding. -/
theorem expire_ready (h : Kept t op)
    (hint : interruptible t.routine = true) (hw : op.wait = .armed) (hcl : op.closed = false) :
    ∃ tr t', Run step t tr t' ∧ Ready (net.goOn (close t.routine) afterTimer) t' := by
  have hop : op = {} := by
    cases hstage : h.stage with
    | running hne => cases hw; rfl
    | answered r => cases hw
    | expired => cases hw
    | called r => cases hw
  subst hop
  have hexpire : step t .expire = some { t with timed := t.timed.expireAll } := rfl
  have hnow : t.timed.expireAll () = some { wait := .queued false } := by
    simp [Timed.expireAll, h.timed, TimedOp.expire]
  obtain ⟨timed', ht⟩ : ∃ timed', t.timed.expireAll.step (.timer ()) = some timed' := by
    simp [Timed.step, hnow]
  obtain ⟨op₁, aborted, hop₁, hw₁, hnext⟩ := Timed.step_timer_eq_some ht
  obtain rfl := Option.some.inj (hnow.symm.trans hop₁)
  cases hw₁
  have hnow' : timed' () = some
      { done := true, coroComplete := true, wait := .idle, closed := true } := by
    rw [hnext]
    exact Timed.set_self _ _ _
  have htimer : step { t with timed := t.timed.expireAll } .timer =
      some ⟨close t.routine, timed'⟩ := by
    simp [step, hint, ht, isClosed, hnow, hnow']
  have hrun₂ : Run step t _ ⟨close t.routine, timed'⟩ := .snoc (.snoc .nil hexpire) htimer
  obtain ⟨⟨op₂, hkept₁⟩, -⟩ := step_view h hexpire
  obtain ⟨⟨op₃, hkept₂⟩, -⟩ := step_view hkept₁ htimer
  obtain rfl := Option.some.inj (hkept₂.timed.symm.trans hnow')
  exact ⟨_, _, hrun₂, _, hkept₂, rfl, fun _ => Or.inl rfl⟩

/-- A step of `asyncTimer` can be made under `async_timer`. -/
theorem ready_step {c₁ : Coroutine Session SessionOp Answer Outcome} {e : ScriptEvent Answer Unit}
    (h : Ready c t) (hs : net.step c e = some c₁) :
    ∃ tr t', Run step t tr t' ∧ Ready c₁ t' := by
  obtain ⟨op, hkept, rfl, hready⟩ := h
  have hrun : t.routine.result = none := view_result t ▸ Surroundings.running_of_step hs
  rw [view, Surroundings.step_goOn hrun] at hs
  obtain ⟨c', hc, rfl⟩ := Option.map_eq_some_iff.1 hs
  cases e with
  | complete a =>
      have hstep : step t (.complete a) = some { t with routine := c' } := by simp [step, hc]
      obtain ⟨⟨op', hkept'⟩, -⟩ := step_view hkept hstep
      obtain rfl : op = op' := Option.some.inj (hkept.timed.symm.trans hkept'.timed)
      exact ⟨_, _, .snoc .nil hstep, op, hkept', rfl, fun _ => hready hrun⟩
  | deliver =>
      obtain ⟨-, htimer, hrest⟩ := deliver_routine hc hkept.rest
      obtain ⟨t', op', hsettle, hkept', hview, hop⟩ := settle_kept hkept.timed hkept.stage
        (hkept.running (by simp [hrun])) (htimer.trans (hkept.timer hrun)) hrest
      have hstep : step t .deliver = some t' := by simp [step, hc, hsettle]
      refine ⟨_, t', .snoc .nil hstep, op', hkept', hview, ?_⟩
      intro hno
      rw [hop hno]
      exact hready hrun
  | disturb u =>
      obtain ⟨hint, htimer⟩ := disturb_routine hc
      have hcl : op.closed = false := by
        cases hcl : op.closed with
        | false => rfl
        | true => rw [hkept.timer hrun, hcl] at htimer; cases htimer
      have hw : op.wait = .armed := by
        rcases hready hrun with h | h
        · rw [hcl] at h; cases h
        · exact h
      obtain ⟨hclose, -⟩ := close_routine hrun hint htimer
      obtain rfl : close t.routine = c' := Option.some.inj (hclose.symm.trans hc)
      exact expire_ready hkept hint hw hcl

/-- What `asyncTimer` does, a routine can do under `async_timer`. -/
theorem reaches_of_run (hp : Untimed p)
    {tr : List (Coroutine Session SessionOp Answer Outcome × ScriptEvent Answer Unit)}
    (h : Run net.step (net.enter s (asyncTimer p)) tr c) : ∃ t, Reaches s p t ∧ Ready c t := by
  obtain ⟨t₀, op, hstart, hkept, hview, hop⟩ := start_kept hp s
  have hready : Ready (net.enter s (asyncTimer p)) t₀ :=
    ⟨op, hkept, hview, fun hno => Or.inr (by rw [hop hno])⟩
  obtain ⟨tr', t, hr, hready'⟩ :=
    h.simulate (R := Ready) hready fun _ _ _ _ hR hs => ready_step hR hs
  exact ⟨t, ⟨t₀, tr', hstart, hr⟩, hready'⟩

/-- The handler is called with what the routine has completed with. -/
theorem completed_of_called (h : Kept t op) (ha : a ∈ t.calls) :
    t.routine.result = some (.completed a) := by
  have ha : a ∈ op.calls := by simpa [calls, h.timed] using ha
  have hres : op.results = some a := by
    cases hstage : h.stage with
    | running hw => cases ha
    | answered r => cases ha
    | expired => cases ha
    | called r =>
        obtain rfl : a = r := by simpa using ha
        rfl
  by_cases hcompleted : ∃ b, t.routine.result = some (.completed b)
  · obtain ⟨b, hb⟩ := hcompleted
    rw [(h.completed b hb).1] at hres
    obtain rfl := Option.some.inj hres
    exact hb
  · have hrun := h.running fun b hb => hcompleted ⟨b, hb⟩
    rw [completed_of_results h.stage hres] at hrun
    cases hrun

/-- The operation is through: its handler has been called, or is by the next
handler of the timer. -/
theorem called_of_completed (h : Kept t op) (hres : t.routine.result = some (.completed a)) :
    ∃ tr t', Run step t tr t' ∧ a ∈ t'.calls ∧ t'.routine.world = t.routine.world := by
  have hresults := (h.completed a hres).1
  have hint : interruptible t.routine = true := by
    simp only [Coroutine.result] at hres
    unfold interruptible
    split at hres
    · rename_i hframe
      obtain rfl := Option.some.inj hres
      rw [hframe]
    · cases hres
  cases hstage : h.stage with
  | running hw => cases hresults
  | expired => cases hresults
  | called r =>
      obtain rfl : r = a := Option.some.inj hresults
      exact ⟨[], t, .nil, by simp [calls, h.timed], rfl⟩
  | @answered aborted r =>
      obtain rfl : r = a := Option.some.inj hresults
      obtain ⟨timed', ht⟩ : ∃ timed', t.timed.step (.timer ()) = some timed' := by
        simp [Timed.step, h.timed]
      obtain ⟨op₁, aborted', hop₁, hw₁, hnext⟩ := Timed.step_timer_eq_some ht
      obtain rfl := Option.some.inj (h.timed.symm.trans hop₁)
      cases hw₁
      have hnow : timed' () = some
          { results := some r, done := true, coroComplete := true, wait := .idle,
            completed := true, calls := [r] } := by
        rw [hnext]
        cases aborted <;> exact Timed.set_self _ _ _
      have hstep : step t .timer = some ⟨t.routine, timed'⟩ := by
        simp [step, hint, ht, isClosed, hnow]
      exact ⟨_, _, .snoc .nil hstep, by simp [calls, hnow], rfl⟩

/-- `async_timer` with its waits, handlers and flags, and `asyncTimer` of the
model: for every routine that leaves the timer alone they reach the same
sessions, and the user's handler is called with the same answers, on the same
sessions. -/
theorem asyncTimer_exact (hp : Untimed p) (s w : Session) :
    ((∃ t, Reaches s p t ∧ t.routine.world = w) ↔
      ∃ tr c, Run net.step (net.enter s (asyncTimer p)) tr c ∧ c.world = w) ∧
    ∀ a, (∃ t, Reaches s p t ∧ a ∈ t.calls ∧ t.routine.world = w) ↔
      ∃ tr c, Run net.step (net.enter s (asyncTimer p)) tr c ∧
        c.result = some (.completed a) ∧ c.world = w := by
  refine ⟨⟨?_, ?_⟩, fun a => ⟨?_, ?_⟩⟩
  · intro h
    obtain ⟨t, ht, rfl⟩ := h
    obtain ⟨op, tr, hkept, hr⟩ := reaches_view hp ht
    exact ⟨tr, view t, hr, hkept.view_world⟩
  · intro h
    obtain ⟨tr, c, hr, rfl⟩ := h
    obtain ⟨t, ht, op, hkept, rfl, -⟩ := reaches_of_run hp hr
    exact ⟨t, ht, hkept.view_world.symm⟩
  · intro h
    obtain ⟨t, ht, ha, rfl⟩ := h
    obtain ⟨op, tr, hkept, hr⟩ := reaches_view hp ht
    exact ⟨tr, view t, hr, (view_result t).trans (completed_of_called hkept ha), hkept.view_world⟩
  · intro h
    obtain ⟨tr, c, hr, hres, rfl⟩ := h
    obtain ⟨t, ht, op, hkept, rfl, -⟩ := reaches_of_run hp hr
    rw [view_result] at hres
    obtain ⟨tr', t', hr', ha, hw⟩ := called_of_completed hkept hres
    obtain ⟨t₀, tr₀, hstart, hr₀⟩ := ht
    exact ⟨t', ⟨t₀, _, hstart, hr₀.append hr'⟩, ha, hw.trans hkept.view_world.symm⟩

/-- A routine that ends where an operation fails. -/
theorem untimed_failing {op : SessionOp} (fail : ErrorCode → Outcome) {k : Answer → Routine Outcome}
    (hk : ∀ a, Untimed (k a)) :
    Untimed (.call op fun a =>
      match a.ec with
      | some ec => .done (fail ec)
      | none => k a) := by
  intro a
  dsimp only
  split
  · exact trivial
  · exact hk a

theorem untimed_look {k : Session → Routine Outcome} (hk : ∀ s, Untimed (k s)) :
    Untimed (.look k) := ⟨fun _ => rfl, hk⟩

theorem untimed_connectTls (host : Bytes) : Untimed (connectTls host) := by
  have hhandshake : Untimed connectHandshake := fun _ => trivial
  refine untimed_look ?_
  intro s
  split
  · refine untimed_failing .threw ?_
    intro _
    exact untimed_failing .threw fun _ => hhandshake
  · exact hhandshake

theorem untimed_connectOp (host service : Bytes) : Untimed (connectOp host service) := by
  refine untimed_failing (fun ec => .completed { ec := some ec }) ?_
  intro _
  refine untimed_failing (fun ec => .completed { ec := some ec }) ?_
  intro _
  refine untimed_look ?_
  intro s
  split
  · exact untimed_connectTls host
  · exact trivial

/-- A connect whose time runs out while the name is being resolved: the handler
is called without an error, and the socket is open. -/
theorem asyncTimer_exact_resolving :
    ∃ t, Reaches (ofOpts {}) (connectOp (ascii "a.example") (ascii "80")) t ∧ {} ∈ t.calls ∧
      t.routine.world.isOpen = true ∧ t.routine.world.expiredIn ≠ none := by
  have hex : (exec net.step (net.enter (ofOpts {}) (asyncConnect (ascii "a.example") (ascii "80")))
      [.disturb (), .complete {}, .deliver, .complete {}, .deliver]).map
      (fun r => (r.2.result, r.2.world.isOpen, r.2.world.expiredIn.isSome)) =
      some (some (.completed {}), true, true) := by decide
  obtain ⟨⟨tr, c⟩, hex, hc⟩ := Option.map_eq_some_iff.1 hex
  obtain ⟨hres, hc⟩ := Prod.mk.inj hc
  obtain ⟨hopen, hexp⟩ := Prod.mk.inj hc
  have huntimed := untimed_connectOp (ascii "a.example") (ascii "80")
  obtain ⟨t, ht, ha, hw⟩ := ((asyncTimer_exact huntimed (ofOpts {}) c.world).2 {}).2
    ⟨tr, c, Run.of_exec hex, hres, rfl⟩
  refine ⟨t, ht, ha, ?_, ?_⟩
  · rw [hw]
    exact hopen
  · rw [hw]
    intro hno
    simp [hno] at hexp

end TimedRoutine

end Foxy.Session
