import Mathlib.Data.List.Range
import Foxy.Lib.Run
import Foxy.Session.Basic

/-!
# Foxy.ProxyAccept

The accept loop of the proxy (`proxy::async_accept`, `loop` and `cancel` in
`src/proxy.cpp`).

The loop is one coroutine, a member of the proxy, and so is the stream it accepts
into. Each call of `async_accept` enters that coroutine, wherever it is, as if
what it waits for had been completed without an error. `cancel` cancels the
accept that is outstanding when its handler runs; the acceptor stays open.
-/

namespace Foxy

open Lib

/-- Where `accept_coro_` is. -/
inductive LoopPoint
  | start
  /-- `loop` is posted to the strand. -/
  | posted
  | accepting
  | complete
  deriving Repr, DecidableEq

/-- An accept whose handler has not run yet. -/
inductive PendingAccept
  | outstanding
  | answered (result : Except ErrorCode Nat)
  deriving Repr, DecidableEq

namespace PendingAccept

def abort : PendingAccept → PendingAccept
  | outstanding => answered (.error .operationAborted)
  | a => a

/-- The connection an accept holds. -/
def holds : PendingAccept → Option Nat
  | answered (.ok c) => some c
  | _ => none

end PendingAccept

/-- `boost::asio::error::already_open`. -/
def alreadyOpen : ErrorCode := .other 1

/-- The state of the loop. Connections are numbered in the order in which the
operating system hands them over. -/
structure ProxyLoop where
  point : LoopPoint := .start
  posts : Nat := 0
  /-- The posted handlers of `cancel`. -/
  cancels : Nat := 0
  accepts : List PendingAccept := []
  /-- The connection in `stream_`, if it has one. -/
  stream : Option Nat := none
  accepted : Nat := 0
  /-- The streams that an `async_connect_op` was posted with, in order. -/
  served : List (Option Nat) := []
  deriving Repr, DecidableEq

inductive LoopEvent
  /-- `async_accept` is called. -/
  | asyncAccept
  /-- `cancel` is called. -/
  | cancel
  | runPost
  | runCancel
  /-- An accept completes. -/
  | accept (i : Nat)
  | fail (i : Nat) (ec : ErrorCode)
  /-- The handler of an accept runs. -/
  | deliver (i : Nat)
  deriving Repr, DecidableEq

namespace ProxyLoop

/-- `acceptor_.async_accept(stream_.plain(), ...)`. -/
def startAccept (s : ProxyLoop) : ProxyLoop :=
  { s with
    point := .accepting
    accepts := s.accepts ++
      [if s.stream.isSome then .answered (.error alreadyOpen) else .outstanding] }

/-- `loop(ec)`. -/
def loop (s : ProxyLoop) (ec : Option ErrorCode) : ProxyLoop :=
  match s.point with
  | .start => { s with point := .posted, posts := s.posts + 1 }
  | .posted => s.startAccept
  | .accepting =>
    match ec with
    | some .operationAborted => { s with point := .complete }
    | some _ => s.startAccept
    | none => { s with served := s.served ++ [s.stream], stream := none }.startAccept
  | .complete => s

/-- The handler of an accept: the connection is put into `stream_`, unless that
has one. -/
def onAccept (s : ProxyLoop) (result : Except ErrorCode Nat) : ProxyLoop :=
  match result with
  | .error ec => s.loop (some ec)
  | .ok c =>
    if s.stream.isSome then s.loop (some alreadyOpen) else { s with stream := some c }.loop none

def step (s : ProxyLoop) : LoopEvent → Option ProxyLoop
  | .asyncAccept => some (s.loop none)
  | .cancel => some { s with cancels := s.cancels + 1 }
  | .runPost => if 0 < s.posts then some ({ s with posts := s.posts - 1 }.loop none) else none
  | .runCancel =>
    if 0 < s.cancels then
      some { s with cancels := s.cancels - 1, accepts := s.accepts.map PendingAccept.abort }
    else none
  | .accept i =>
    match s.accepts[i]? with
    | some .outstanding =>
      some { s with
        accepts := s.accepts.set i (.answered (.ok s.accepted))
        accepted := s.accepted + 1 }
    | _ => none
  | .fail i ec =>
    match s.accepts[i]? with
    | some .outstanding =>
      -- nothing but `cancel` aborts an accept
      if ec = .operationAborted then none
      else some { s with accepts := s.accepts.set i (.answered (.error ec)) }
    | _ => none
  | .deliver i =>
    match s.accepts[i]? with
    | some (.answered result) => some ({ s with accepts := s.accepts.eraseIdx i }.onAccept result)
    | _ => none

/-! ### One step -/

/-- Everything a step can do. -/
inductive Step (s : ProxyLoop) : LoopEvent → ProxyLoop → Prop
  | asyncAccept : Step s .asyncAccept (s.loop none)
  | cancel : Step s .cancel { s with cancels := s.cancels + 1 }
  | runPost (hp : 0 < s.posts) : Step s .runPost ({ s with posts := s.posts - 1 }.loop none)
  | runCancel (hc : 0 < s.cancels) :
      Step s .runCancel
        { s with cancels := s.cancels - 1, accepts := s.accepts.map PendingAccept.abort }
  | accept {i : Nat} (hi : s.accepts[i]? = some .outstanding) :
      Step s (.accept i)
        { s with
          accepts := s.accepts.set i (.answered (.ok s.accepted))
          accepted := s.accepted + 1 }
  | fail {i : Nat} {ec : ErrorCode} (hi : s.accepts[i]? = some .outstanding)
      (hec : ec ≠ .operationAborted) :
      Step s (.fail i ec) { s with accepts := s.accepts.set i (.answered (.error ec)) }
  | deliver {i : Nat} {result : Except ErrorCode Nat}
      (hi : s.accepts[i]? = some (.answered result)) :
      Step s (.deliver i) ({ s with accepts := s.accepts.eraseIdx i }.onAccept result)

variable {s s' : ProxyLoop} {e : LoopEvent} {tr : List (ProxyLoop × LoopEvent)}

theorem step_inv (h : s.step e = some s') : Step s e s' := by
  cases e with
  | asyncAccept => exact Option.some.inj h ▸ .asyncAccept
  | cancel => exact Option.some.inj h ▸ .cancel
  | runPost =>
      simp only [step] at h
      split at h
      · rename_i hp
        exact Option.some.inj h ▸ .runPost hp
      · cases h
  | runCancel =>
      simp only [step] at h
      split at h
      · rename_i hc
        exact Option.some.inj h ▸ .runCancel hc
      · cases h
  | accept i =>
      simp only [step] at h
      split at h
      · rename_i hi
        exact Option.some.inj h ▸ .accept hi
      · cases h
  | fail i ec =>
      simp only [step] at h
      split at h
      · rename_i hi
        split at h
        · cases h
        · rename_i hec
          exact Option.some.inj h ▸ .fail hi hec
      · cases h
  | deliver i =>
      simp only [step] at h
      split at h
      · rename_i result hi
        exact Option.some.inj h ▸ .deliver hi
      · cases h

/-! ### Cancelling -/

/-- The loop has come to its end, or an aborted accept is about to bring it
there. -/
def Stopped (s : ProxyLoop) : Prop :=
  s.point = .complete ∨ .answered (.error .operationAborted) ∈ s.accepts

/-- Before the loop accepts there is no accept. -/
def Early (s : ProxyLoop) : Prop := s.point = .start ∨ s.point = .posted → s.accepts = []

/-- What is replaced was something else, and so is what it is replaced by. -/
theorem mem_set_iff {α : Type*} {l : List α} {i : Nat} {a b x : α} (hi : l[i]? = some a)
    (ha : x ≠ a) (hb : x ≠ b) : x ∈ l.set i b ↔ x ∈ l := by
  constructor
  · exact fun h => (List.mem_or_eq_of_mem_set h).resolve_right hb
  · intro h
    obtain ⟨j, hj⟩ := List.mem_iff_getElem?.1 h
    have hji : i ≠ j := by
      intro heq
      rw [← heq, hi] at hj
      exact ha (Option.some.inj hj).symm
    exact List.mem_iff_getElem?.2 ⟨j, by rw [List.getElem?_set_ne hji, hj]⟩

/-- What is taken out was something else. -/
theorem mem_eraseIdx_of_ne {α : Type*} {l : List α} {i : Nat} {a x : α} (hi : l[i]? = some a)
    (ha : x ≠ a) : x ∈ l.eraseIdx i ↔ x ∈ l := by
  rw [List.mem_eraseIdx_iff_getElem?, List.mem_iff_getElem?]
  constructor
  · intro h
    obtain ⟨j, -, hj⟩ := h
    exact ⟨j, hj⟩
  · intro h
    obtain ⟨j, hj⟩ := h
    refine ⟨j, ?_, hj⟩
    intro hji
    rw [hji, hi] at hj
    exact ha (Option.some.inj hj).symm

theorem startAccept_stopped (s : ProxyLoop) (h : s.point ≠ .complete) :
    s.startAccept.Stopped ↔ s.Stopped := by
  have hnew : PendingAccept.answered (.error .operationAborted) ≠
      if s.stream.isSome then .answered (.error alreadyOpen) else .outstanding := by
    split <;> simp [alreadyOpen]
  simp only [Stopped, startAccept, List.mem_append, List.mem_singleton]
  simp [h, hnew]

/-- The loop comes to its end only through an aborted accept. -/
theorem loop_stopped (s : ProxyLoop) {ec : Option ErrorCode}
    (hec : ec ≠ some .operationAborted) : (s.loop ec).Stopped ↔ s.Stopped := by
  unfold loop
  split
  · rename_i hp
    simp [Stopped, hp]
  · rename_i hp
    exact startAccept_stopped s (by simp [hp])
  · rename_i hp
    split
    · exact absurd rfl hec
    · exact startAccept_stopped s (by simp [hp])
    · exact startAccept_stopped { s with served := _, stream := none } (by simp [hp])
  · exact Iff.rfl

theorem onAccept_stopped (s : ProxyLoop) {result : Except ErrorCode Nat}
    (h : result ≠ .error .operationAborted) : (s.onAccept result).Stopped ↔ s.Stopped := by
  unfold onAccept
  split
  · rename_i ec
    exact loop_stopped s (by simpa using h)
  · rename_i c
    split
    · exact loop_stopped s (by simp [alreadyOpen])
    · exact loop_stopped { s with stream := some c } (by simp)

/-- One step stops the loop only if it cancels an outstanding accept. -/
theorem Step.stopped_iff (h : Step s e s') (hearly : Early s) :
    s'.Stopped ↔ s.Stopped ∨ e = .runCancel ∧ .outstanding ∈ s.accepts := by
  cases h with
  | asyncAccept => simp [loop_stopped s]
  | cancel => simp [Stopped]
  | runPost hp =>
      rw [loop_stopped { s with posts := s.posts - 1 } (by simp)]
      simp [Stopped]
  | runCancel hc =>
      have habort : PendingAccept.answered (.error .operationAborted) ∈
          s.accepts.map PendingAccept.abort ↔
            .answered (.error .operationAborted) ∈ s.accepts ∨ .outstanding ∈ s.accepts := by
        rw [List.mem_map]
        refine ⟨?_, ?_⟩
        · intro h
          obtain ⟨a, ha, heq⟩ := h
          cases a with
          | outstanding => exact Or.inr ha
          | answered result => exact Or.inl (heq ▸ ha)
        · intro h
          rcases h with h | h
          · exact ⟨_, h, rfl⟩
          · exact ⟨_, h, rfl⟩
      simp only [Stopped, habort]
      tauto
  | accept hi => simp [Stopped, mem_set_iff hi]
  | fail hi hec => simp [Stopped, mem_set_iff hi, hec.symm]
  | @deliver i result hi =>
      by_cases hres : result = .error .operationAborted
      · subst hres
        have hmem : PendingAccept.answered (.error .operationAborted) ∈ s.accepts :=
          List.mem_of_getElem? hi
        refine iff_of_true ?_ (Or.inl (Or.inr hmem))
        have hpoint : ¬(s.point = .start ∨ s.point = .posted) := by
          intro hp
          rw [hearly hp] at hmem
          cases hmem
        left
        simp only [onAccept, loop]
        cases hp : s.point with
        | start => exact absurd (Or.inl hp) hpoint
        | posted => exact absurd (Or.inr hp) hpoint
        | accepting => rfl
        | complete => rfl
      · have hne : PendingAccept.answered (.error .operationAborted) ≠ .answered result := by
          simpa using fun h => hres h.symm
        rw [onAccept_stopped _ hres]
        simp [Stopped, mem_eraseIdx_of_ne hi hne]

theorem loop_early (s : ProxyLoop) (ec : Option ErrorCode) (h : Early s) :
    Early (s.loop ec) := by
  unfold loop
  split
  · rename_i hp
    intro _
    exact h (Or.inl hp)
  · simp [Early, startAccept]
  · split <;> simp [Early, startAccept]
  · exact h

theorem Step.early (h : Step s e s') (hearly : Early s) : Early s' := by
  cases h with
  | asyncAccept => exact loop_early s _ hearly
  | cancel => exact hearly
  | runPost hp => exact loop_early { s with posts := s.posts - 1 } _ hearly
  | runCancel hc =>
      intro hp
      dsimp only
      rw [hearly hp, List.map_nil]
  | accept hi =>
      intro hp
      dsimp only
      rw [hearly hp, List.set_nil]
  | fail hi hec =>
      intro hp
      dsimp only
      rw [hearly hp, List.set_nil]
  | @deliver i result hi =>
      have herase : Early { s with accepts := s.accepts.eraseIdx i } := by
        intro hp
        dsimp only
        rw [hearly hp, List.eraseIdx_nil]
      unfold onAccept
      split
      · exact loop_early _ _ herase
      · split
        · exact loop_early _ _ herase
        · exact loop_early { s with accepts := _, stream := _ } _ herase

theorem run_early (h : Run step {} tr s) : Early s := by
  refine h.invariant (I := fun _ s => Early s) (fun _ => rfl) ?_
  intro tr s e s' _ ih hs
  exact (step_inv hs).early ih

/-- In every run, the loop is stopped exactly when a handler of `cancel` ran while
an accept was outstanding. One that runs when the accept is already through, its
handler queued, has no effect. -/
theorem run_cancel (h : Run step {} tr s) :
    s.Stopped ↔ ∃ st, (st, LoopEvent.runCancel) ∈ tr ∧ .outstanding ∈ st.accepts := by
  refine h.invariant (I := fun tr s =>
    s.Stopped ↔ ∃ st, (st, LoopEvent.runCancel) ∈ tr ∧ .outstanding ∈ st.accepts) ?_ ?_
  · simp [Stopped]
  · intro tr s e s' hr ih hs
    rw [(step_inv hs).stopped_iff (run_early hr), ih]
    refine ⟨?_, ?_⟩
    · intro h
      rcases h with ⟨st, hmem, hout⟩ | ⟨rfl, hout⟩
      · exact ⟨st, List.mem_append_left _ hmem, hout⟩
      · exact ⟨s, by simp, hout⟩
    · intro h
      obtain ⟨st, hmem, hout⟩ := h
      rcases List.mem_append.1 hmem with hmem | hmem
      · exact Or.inl ⟨st, hmem, hout⟩
      · obtain ⟨rfl, rfl⟩ := Prod.mk.inj (List.mem_singleton.1 hmem)
        exact Or.inr ⟨rfl, hout⟩

/-- `cancel` runs while an accept is outstanding, and the aborted accept ends the
loop. -/
theorem run_cancel_outstanding :
    ∃ tr s, Run step {} tr s ∧ s.point = .complete ∧
      ∃ st, (st, LoopEvent.runCancel) ∈ tr ∧ .outstanding ∈ st.accepts := by
  have hex : (exec step {} [.asyncAccept, .runPost, .cancel, .runCancel, .deliver 0]).map
      (·.2.point) = some .complete := by decide
  obtain ⟨⟨tr, s⟩, hex, hp⟩ := Option.map_eq_some_iff.1 hex
  have hrun := Run.of_exec hex
  exact ⟨tr, s, hrun, hp, (run_cancel hrun).1 (Or.inl hp)⟩

/-! ### One call of `async_accept` -/

/-- The connections served when the first so many were, each with a stream of its
own. -/
def firstServed (n : Nat) : List (Option Nat) := (List.range n).map some

/-- The states of a loop that is entered by its own handlers only. -/
inductive Sole : ProxyLoop → Prop
  | start {cancels : Nat} : Sole { cancels }
  | posted {cancels : Nat} : Sole { point := .posted, posts := 1, cancels }
  | outstanding {cancels n : Nat} :
      Sole { point := .accepting, cancels, accepts := [.outstanding], accepted := n,
             served := firstServed n }
  | accepted {cancels n : Nat} :
      Sole { point := .accepting, cancels, accepts := [.answered (.ok n)], accepted := n + 1,
             served := firstServed n }
  | failed {cancels n : Nat} {ec : ErrorCode} :
      Sole { point := .accepting, cancels, accepts := [.answered (.error ec)], accepted := n,
             served := firstServed n }
  | complete {cancels n : Nat} :
      Sole { point := .complete, cancels, accepted := n, served := firstServed n }

/-- `async_accept` is not called while the loop is under way. -/
def NotReentered (x : ProxyLoop × LoopEvent) : Prop :=
  x.2 = .asyncAccept → x.1.point = .start ∨ x.1.point = .complete

theorem getElem?_singleton_eq {α : Type*} {a b : α} {i : Nat} (h : [a][i]? = some b) :
    i = 0 ∧ a = b := by
  cases i with
  | zero => exact ⟨rfl, by simpa using h⟩
  | succ i => simp at h

theorem Step.sole (h : Step s e s') (hs : Sole s) (he : NotReentered (s, e)) : Sole s' := by
  cases hs with
  | start =>
      cases h with
      | asyncAccept => exact .posted
      | cancel => exact .start
      | runPost hp => cases hp
      | runCancel hc => exact .start
      | accept hi => cases hi
      | fail hi hec => cases hi
      | deliver hi => cases hi
  | posted =>
      cases h with
      | asyncAccept => rcases he rfl with hp | hp <;> cases hp
      | cancel => exact .posted
      | runPost hp => exact .outstanding (n := 0)
      | runCancel hc => exact .posted
      | accept hi => cases hi
      | fail hi hec => cases hi
      | deliver hi => cases hi
  | outstanding =>
      cases h with
      | asyncAccept => rcases he rfl with hp | hp <;> cases hp
      | cancel => exact .outstanding
      | runPost hp => cases hp
      | runCancel hc => exact .failed
      | accept hi =>
          obtain ⟨rfl, -⟩ := getElem?_singleton_eq hi
          exact .accepted
      | fail hi hec =>
          obtain ⟨rfl, -⟩ := getElem?_singleton_eq hi
          exact .failed
      | deliver hi => cases (getElem?_singleton_eq hi).2
  | @accepted cancels n =>
      cases h with
      | asyncAccept => rcases he rfl with hp | hp <;> cases hp
      | cancel => exact .accepted
      | runPost hp => cases hp
      | runCancel hc => exact .accepted
      | accept hi => cases (getElem?_singleton_eq hi).2
      | fail hi hec => cases (getElem?_singleton_eq hi).2
      | deliver hi =>
          obtain ⟨rfl, heq⟩ := getElem?_singleton_eq hi
          cases heq
          have hserved : firstServed n ++ [some n] = firstServed (n + 1) := by
            simp [firstServed, List.range_succ]
          have hnext := @Sole.outstanding cancels (n + 1)
          rw [← hserved] at hnext
          exact hnext
  | @failed cancels n ec =>
      cases h with
      | asyncAccept => rcases he rfl with hp | hp <;> cases hp
      | cancel => exact .failed
      | runPost hp => cases hp
      | runCancel hc => exact .failed
      | accept hi => cases (getElem?_singleton_eq hi).2
      | fail hi hec => cases (getElem?_singleton_eq hi).2
      | deliver hi =>
          obtain ⟨rfl, heq⟩ := getElem?_singleton_eq hi
          cases heq
          cases ec with
          | operationAborted => exact .complete
          | eof => exact .outstanding
          | streamTruncated => exact .outstanding
          | other value => exact .outstanding
  | complete =>
      cases h with
      | asyncAccept => exact .complete
      | cancel => exact .complete
      | runPost hp => cases hp
      | runCancel hc => exact .complete
      | accept hi => cases hi
      | fail hi hec => cases hi
      | deliver hi => cases hi

theorem run_sole (h : Run step {} tr s) (hone : ∀ x ∈ tr, NotReentered x) : Sole s :=
  h.invariant_of (I := fun _ s => Sole s) hone .start fun _ _ _ _ ih he hs =>
    (step_inv hs).sole ih he

/-- The streams that hold a connection and have not been handed on. -/
def held (s : ProxyLoop) : List (Option Nat) := (s.accepts.filterMap PendingAccept.holds).map some

/-- In every run in which `async_accept` is not called while the loop is under
way: every `async_connect_op` is posted with a connection of its own, in the
order in which they were accepted, and none is lost. -/
theorem run_served (h : Run step {} tr s) (hone : ∀ x ∈ tr, NotReentered x) :
    s.served ++ s.held = firstServed s.accepted ∧ s.stream = none := by
  cases run_sole h hone with
  | start => exact ⟨rfl, rfl⟩
  | posted => exact ⟨rfl, rfl⟩
  | outstanding => exact ⟨List.append_nil _, rfl⟩
  | @accepted cancels n =>
      refine ⟨?_, rfl⟩
      simp [firstServed, List.range_succ, held, PendingAccept.holds]
  | failed => exact ⟨List.append_nil _, rfl⟩
  | complete => exact ⟨List.append_nil _, rfl⟩

-- a second call of `async_accept` posts an `async_connect_op` without a connection
example : (exec step {} [.asyncAccept, .runPost, .asyncAccept]).map (·.2.served) =
    some [none] := by
  decide

/-- What happens without the user. -/
def Own (e : LoopEvent) : Prop := e ≠ .asyncAccept ∧ e ≠ .cancel

/-- A loop that was started and is not stopped can go on, and stays so. -/
theorem Sole.goes_on (hs : Sole s) (hstop : ¬s.Stopped) (hp : s.point ≠ .start) :
    ∃ e s', e ≠ .runCancel ∧ Own e ∧ s.step e = some s' ∧ s'.point ≠ .start := by
  cases hs with
  | start => exact absurd rfl hp
  | posted => exact ⟨.runPost, _, by simp, by simp [Own], rfl, by simp [loop, startAccept]⟩
  | outstanding => exact ⟨.accept 0, _, by simp, by simp [Own], rfl, by simp⟩
  | accepted =>
      exact ⟨.deliver 0, _, by simp, by simp [Own], rfl, by simp [onAccept, loop, startAccept]⟩
  | @failed cancels n ec =>
      refine ⟨.deliver 0, _, by simp, by simp [Own], rfl, ?_⟩
      cases ec <;> simp [onAccept, loop, startAccept]
  | complete => exact absurd (Or.inl rfl) hstop

theorem Sole.early (hs : Sole s) : Early s := by
  cases hs <;> simp [Early]

/-- Once the loop is stopped, every event but a call leaves less to happen. -/
theorem Step.stopped_lt (h : Step s e s') (hs : Sole s) (hstop : s.Stopped) (he : Own e) :
    s'.cancels + s'.accepts.length < s.cancels + s.accepts.length := by
  cases hs with
  | start => rcases hstop with hp | hm <;> simp at *
  | posted => rcases hstop with hp | hm <;> simp at *
  | outstanding => rcases hstop with hp | hm <;> simp at *
  | accepted => rcases hstop with hp | hm <;> simp at *
  | @failed cancels n ec =>
      obtain rfl : ErrorCode.operationAborted = ec := by
        rcases hstop with hp | hm
        · cases hp
        · simpa using hm
      cases h with
      | asyncAccept => exact absurd rfl he.1
      | cancel => exact absurd rfl he.2
      | runPost hp => cases hp
      | runCancel hc =>
          simp only [List.length_map]
          dsimp only at hc
          omega
      | accept hi => cases (getElem?_singleton_eq hi).2
      | fail hi hec => cases (getElem?_singleton_eq hi).2
      | deliver hi =>
          obtain ⟨rfl, heq⟩ := getElem?_singleton_eq hi
          cases heq
          simp [onAccept, loop]
  | complete =>
      cases h with
      | asyncAccept => exact absurd rfl he.1
      | cancel => exact absurd rfl he.2
      | runPost hp => cases hp
      | runCancel hc =>
          dsimp only at hc ⊢
          simp only [List.map_nil, List.length_nil]
          omega
      | accept hi => cases hi
      | fail hi hec => cases hi
      | deliver hi => cases hi

/-- In every run of a loop that was started, by calls that did not come while it
was under way: left to itself the proxy can go on accepting for ever unless it is
stopped. -/
theorem run_forever (h : Run step {} tr s) (hone : ∀ x ∈ tr, NotReentered x)
    (hp : s.point ≠ .start) : Forever step Own s ↔ ¬s.Stopped := by
  refine ⟨?_, ?_⟩
  · intro hforever hstop
    refine not_forever_of_measure (C := fun s => Sole s ∧ s.Stopped)
      (fun s => s.cancels + s.accepts.length) ?_ ⟨run_sole h hone, hstop⟩ hforever
    intro s e s' hC he hs
    have hstep := step_inv hs
    refine ⟨⟨hstep.sole hC.1 (fun heq => absurd heq he.1), ?_⟩, hstep.stopped_lt hC.1 hC.2 he⟩
    exact (hstep.stopped_iff hC.1.early).2 (Or.inl hC.2)
  · intro hstop
    refine forever_of_step (C := fun s => Sole s ∧ ¬s.Stopped ∧ s.point ≠ .start) ?_
      ⟨run_sole h hone, hstop, hp⟩
    intro s hC
    obtain ⟨hsole, hstop, hp⟩ := hC
    obtain ⟨e, s', hcancel, hown, hs, hp'⟩ := hsole.goes_on hstop hp
    have hstep := step_inv hs
    refine ⟨e, s', hown, hs, hstep.sole hsole (fun heq => absurd heq hown.1), ?_, hp'⟩
    rw [hstep.stopped_iff hsole.early]
    intro hor
    rcases hor with hst | ⟨rfl, -⟩
    · exact hstop hst
    · exact hcancel rfl

/-- The accept is through when `cancel` runs: the proxy goes on. -/
def lateCancel : List LoopEvent :=
  [.asyncAccept, .runPost, .accept 0, .cancel, .runCancel, .deliver 0]

theorem run_forever_lateCancel :
    ∃ tr s, Run step {} tr s ∧ LoopEvent.runCancel ∈ tr.map Prod.snd ∧ Forever step Own s := by
  have hex : (exec step {} lateCancel).map (fun r => (r.1.map Prod.snd, r.2.point, r.2.accepts,
      r.1.all fun x => x.2 != .asyncAccept || x.1.point == .start)) =
      some (lateCancel, .accepting, [.outstanding], true) := by decide
  obtain ⟨⟨tr, s⟩, hex, hs⟩ := Option.map_eq_some_iff.1 hex
  obtain ⟨htr, hs⟩ := Prod.mk.inj hs
  obtain ⟨hp, hs⟩ := Prod.mk.inj hs
  obtain ⟨haccepts, hone⟩ := Prod.mk.inj hs
  have hrun := Run.of_exec hex
  have hp : s.point = .accepting := hp
  have haccepts : s.accepts = [.outstanding] := haccepts
  refine ⟨tr, s, hrun, ?_, (run_forever hrun ?_ ?_).2 ?_⟩
  · show LoopEvent.runCancel ∈ tr.map Prod.snd
    rw [htr]
    decide
  · intro x hx heq
    have hx := List.all_eq_true.1 hone x hx
    simp only [heq, bne_self_eq_false, Bool.false_or, beq_iff_eq] at hx
    exact Or.inl hx
  · simp [hp]
  · simp [Stopped, hp, haccepts]

end ProxyLoop

end Foxy
