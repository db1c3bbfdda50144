import Mathlib.Data.List.Perm.Basic
import Foxy.Lib.Pool
import Foxy.ServerOp

/-!
# Foxy.Listener

The listener (`foxy/listener.hpp`): `accept_op`s that accept on one acceptor,
`shutdown`, and the `server_op`s posted for the connections.

Every call of `async_accept` posts an `accept_op` of its own, so there can be any
number of them. Their handlers and that of `shutdown` run on the listener's
strand, one at a time; every `server_op` has a strand of its own. Connections are
numbered in the order in which the operating system hands them over.
-/

namespace Foxy

open Lib Session

/-- Where an `accept_op` is. -/
inductive AcceptPoint
  | posted
  | accepting
  /-- The accept is through and its handler queued. -/
  | answered (result : Except ErrorCode Nat)
  | ended
  deriving Repr, DecidableEq

/-- The acceptor and all that is done on the listener's strand. -/
structure Acceptor where
  isOpen : Bool := true
  ops : List AcceptPoint := []
  /-- How many connections were accepted. -/
  accepted : Nat := 0
  /-- The connections a `server_op` was posted for, in order. -/
  served : List Nat := []
  /-- The posted handlers of `shutdown`. -/
  closing : Nat := 0
  deriving Repr, DecidableEq

inductive AcceptEvent
  /-- `async_accept` is called. -/
  | asyncAccept
  /-- `shutdown` is called. -/
  | shutdown
  /-- The accept of an `accept_op` completes. -/
  | accept (i : Nat)
  | fail (i : Nat) (ec : ErrorCode)
  /-- The handler of an `accept_op` runs. -/
  | resume (i : Nat)
  /-- The handler of `shutdown` runs. -/
  | close
  deriving Repr, DecidableEq

namespace AcceptPoint

/-- `acceptor_.cancel(ec)` and `acceptor_.close(ec)`, for one accept. -/
def abort : AcceptPoint → AcceptPoint
  | accepting => answered (.error .operationAborted)
  | p => p

/-- The connection that an accept holds. -/
def holds : AcceptPoint → Option Nat
  | answered (.ok c) => some c
  | _ => none

end AcceptPoint

namespace Acceptor

/-- The head of the loop: `while (acceptor.is_open())`. -/
def loopHead (s : Acceptor) : AcceptPoint := if s.isOpen then .accepting else .ended

/-- The connections that were accepted and whose `accept_op` was not resumed yet. -/
def waiting (s : Acceptor) : List Nat := s.ops.filterMap AcceptPoint.holds

/-- One event, and the connection for which it posts a `server_op`. -/
def stepServing (s : Acceptor) : AcceptEvent → Option (Acceptor × Option Nat)
  | .asyncAccept => some ({ s with ops := s.ops ++ [.posted] }, none)
  | .shutdown => some ({ s with closing := s.closing + 1 }, none)
  | .accept i =>
    match s.ops[i]? with
    | some .accepting =>
      some ({ s with
        ops := s.ops.set i (.answered (.ok s.accepted))
        accepted := s.accepted + 1 }, none)
    | _ => none
  | .fail i ec =>
    match s.ops[i]? with
    | some .accepting => some ({ s with ops := s.ops.set i (.answered (.error ec)) }, none)
    | _ => none
  | .resume i =>
    match s.ops[i]? with
    | some .posted => some ({ s with ops := s.ops.set i s.loopHead }, none)
    | some (.answered (.error _)) => some ({ s with ops := s.ops.set i .ended }, none)
    | some (.answered (.ok c)) =>
      some ({ s with ops := s.ops.set i s.loopHead, served := s.served ++ [c] }, some c)
    | _ => none
  | .close =>
    if 0 < s.closing then
      some ({ s with
        isOpen := false
        ops := s.ops.map AcceptPoint.abort
        closing := s.closing - 1 }, none)
    else none

def step (s : Acceptor) (e : AcceptEvent) : Option Acceptor := (s.stepServing e).map Prod.fst

/-! ### One step -/

/-- Everything a step can do, with the connection it serves. -/
inductive Step (s : Acceptor) : AcceptEvent → Acceptor → Option Nat → Prop
  | asyncAccept : Step s .asyncAccept { s with ops := s.ops ++ [.posted] } none
  | shutdown : Step s .shutdown { s with closing := s.closing + 1 } none
  | accept {i : Nat} (hi : s.ops[i]? = some .accepting) :
      Step s (.accept i)
        { s with ops := s.ops.set i (.answered (.ok s.accepted)), accepted := s.accepted + 1 } none
  | fail {i : Nat} {ec : ErrorCode} (hi : s.ops[i]? = some .accepting) :
      Step s (.fail i ec) { s with ops := s.ops.set i (.answered (.error ec)) } none
  | start {i : Nat} (hi : s.ops[i]? = some .posted) :
      Step s (.resume i) { s with ops := s.ops.set i s.loopHead } none
  | failed {i : Nat} {ec : ErrorCode} (hi : s.ops[i]? = some (.answered (.error ec))) :
      Step s (.resume i) { s with ops := s.ops.set i .ended } none
  | serve {i c : Nat} (hi : s.ops[i]? = some (.answered (.ok c))) :
      Step s (.resume i) { s with ops := s.ops.set i s.loopHead, served := s.served ++ [c] } (some c)
  | close (hc : 0 < s.closing) :
      Step s .close
        { s with
          isOpen := false
          ops := s.ops.map AcceptPoint.abort
          closing := s.closing - 1 } none

variable {s s' : Acceptor} {e : AcceptEvent} {tr : List (Acceptor × AcceptEvent)} {i : Nat}
  {c : Option Nat}

theorem stepServing_inv (h : s.stepServing e = some (s', c)) : Step s e s' c := by
  cases e with
  | asyncAccept =>
      obtain ⟨rfl, rfl⟩ := Prod.mk.inj (Option.some.inj h)
      exact .asyncAccept
  | shutdown =>
      obtain ⟨rfl, rfl⟩ := Prod.mk.inj (Option.some.inj h)
      exact .shutdown
  | accept i =>
      simp only [stepServing] at h
      split at h
      · rename_i hi
        obtain ⟨rfl, rfl⟩ := Prod.mk.inj (Option.some.inj h)
        exact .accept hi
      · cases h
  | fail i ec =>
      simp only [stepServing] at h
      split at h
      · rename_i hi
        obtain ⟨rfl, rfl⟩ := Prod.mk.inj (Option.some.inj h)
        exact .fail hi
      · cases h
  | resume i =>
      simp only [stepServing] at h
      split at h
      · rename_i hi
        obtain ⟨rfl, rfl⟩ := Prod.mk.inj (Option.some.inj h)
        exact .start hi
      · rename_i ec hi
        obtain ⟨rfl, rfl⟩ := Prod.mk.inj (Option.some.inj h)
        exact .failed hi
      · rename_i c' hi
        obtain ⟨rfl, rfl⟩ := Prod.mk.inj (Option.some.inj h)
        exact .serve hi
      · cases h
  | close =>
      simp only [stepServing] at h
      split at h
      · rename_i hc
        obtain ⟨rfl, rfl⟩ := Prod.mk.inj (Option.some.inj h)
        exact .close hc
      · cases h

theorem step_inv (h : s.step e = some s') : ∃ c, Step s e s' c := by
  obtain ⟨⟨s₁, c⟩, hs, rfl⟩ := Option.map_eq_some_iff.1 h
  exact ⟨c, stepServing_inv hs⟩

theorem Step.served (h : Step s e s' c) : s'.served = s.served ++ c.toList := by
  cases h <;> simp

/-! ### No connection is lost, none is served twice -/

theorem filterMap_set {α β : Type*} (f : α → Option β) {l : List α} {i : Nat} {a b : α}
    (hi : l[i]? = some a) :
    ((f a).toList ++ (l.set i b).filterMap f).Perm ((f b).toList ++ l.filterMap f) := by
  obtain ⟨hlt, rfl⟩ := List.getElem?_eq_some_iff.1 hi
  have hcons (x : α) (m : List α) : (x :: m).filterMap f = (f x).toList ++ m.filterMap f := by
    cases hx : f x <;> simp [hx]
  have hset := (List.set_perm_cons_eraseIdx hlt b).filterMap f
  have hall := (List.getElem_cons_eraseIdx_perm hlt).filterMap f
  rw [hcons] at hset hall
  have hswap := List.perm_append_comm_assoc (f l[i]).toList (f b).toList
    ((l.eraseIdx i).filterMap f)
  exact (hset.append_left _).trans (hswap.trans (hall.append_left _))

theorem holds_abort (p : AcceptPoint) : p.abort.holds = p.holds := by
  cases p <;> rfl

theorem holds_loopHead (s : Acceptor) : s.loopHead.holds = none := by
  unfold loopHead
  split <;> rfl

/-- The accepted connections are those served and those waiting. -/
def Owned (s : Acceptor) : Prop := (s.served ++ s.waiting).Perm (List.range s.accepted)

theorem waiting_set {p q : AcceptPoint} (hi : s.ops[i]? = some p) :
    (p.holds.toList ++ (s.ops.set i q).filterMap AcceptPoint.holds).Perm
      (q.holds.toList ++ s.waiting) :=
  filterMap_set AcceptPoint.holds hi

theorem Step.owned (h : Step s e s' c) (ho : Owned s) : Owned s' := by
  unfold Owned at ho ⊢
  cases h with
  | asyncAccept =>
      show (s.served ++ (s.ops ++ [AcceptPoint.posted]).filterMap _).Perm _
      rw [List.filterMap_append]
      exact (List.append_nil s.waiting).symm ▸ ho
  | shutdown => exact ho
  | @accept i hi =>
      have hw := waiting_set hi (q := .answered (.ok s.accepted))
      rw [List.range_succ]
      refine (List.Perm.append_left s.served hw).trans ?_
      refine List.perm_middle.trans ?_
      exact (ho.cons s.accepted).trans (List.perm_append_singleton _ _).symm
  | @fail i ec hi =>
      have hw := waiting_set hi (q := .answered (.error ec))
      exact (List.Perm.append_left s.served hw).trans ho
  | @start i hi =>
      have hw := waiting_set hi (q := s.loopHead)
      rw [holds_loopHead] at hw
      exact (List.Perm.append_left s.served hw).trans ho
  | @failed i ec hi =>
      have hw := waiting_set hi (q := .ended)
      exact (List.Perm.append_left s.served hw).trans ho
  | @serve i n hi =>
      have hw := waiting_set hi (q := s.loopHead)
      rw [holds_loopHead] at hw
      show ((s.served ++ [n]) ++ _).Perm _
      rw [List.append_assoc]
      exact (List.Perm.append_left s.served hw).trans ho
  | close hc =>
      have hw : (s.ops.map AcceptPoint.abort).filterMap AcceptPoint.holds = s.waiting := by
        rw [List.filterMap_map, waiting]
        congr 1
        funext p
        exact holds_abort p
      simpa [waiting, hw] using ho

/-- In every run, each connection that was accepted is served by exactly one
`server_op`, or is held by exactly one `accept_op` that was not resumed yet. -/
theorem run_owned (h : Run step {} tr s) : Owned s := by
  refine h.invariant (I := fun _ s => Owned s) .nil ?_
  intro tr s e s' _ ho hs
  obtain ⟨c, hs⟩ := step_inv hs
  exact hs.owned ho

/-! ### When an `accept_op` ends -/

/-- What ends an `accept_op` when it is resumed. -/
def Stops (s : Acceptor) (i : Nat) : Prop :=
  s.isOpen = false ∨ ∃ ec, s.ops[i]? = some (.answered (.error ec))

theorem loopHead_eq_ended : s.loopHead = .ended ↔ s.isOpen = false := by
  unfold loopHead
  cases s.isOpen <;> simp

theorem getElem?_set_ended {p q : AcceptPoint} {j : Nat} (hj : s.ops[j]? = some p) :
    ((s.ops.set j q)[i]? = some .ended) ↔
      if j = i then q = .ended else s.ops[i]? = some .ended := by
  obtain ⟨hlt, -⟩ := List.getElem?_eq_some_iff.1 hj
  rw [List.getElem?_set]
  split
  · rename_i hji
    subst hji
    rw [Option.some.injEq]
  · exact Iff.rfl

/-- One step ends an `accept_op` only by resuming it. -/
theorem Step.ended_iff (h : Step s e s' c) (i : Nat) :
    s'.ops[i]? = some .ended ↔ s.ops[i]? = some .ended ∨ e = .resume i ∧ Stops s i := by
  cases h with
  | asyncAccept =>
      dsimp only
      rw [List.getElem?_append]
      split
      · simp
      · rename_i hle
        have hnone : s.ops[i]? = none := List.getElem?_eq_none (Nat.le_of_not_lt hle)
        rw [hnone, List.getElem?_singleton]
        split <;> simp
  | shutdown => simp
  | @accept j hj =>
      dsimp only
      rw [getElem?_set_ended hj]
      split
      · rename_i hji
        subst hji
        simp [hj]
      · simp
  | @fail j ec hj =>
      dsimp only
      rw [getElem?_set_ended hj]
      split
      · rename_i hji
        subst hji
        simp [hj]
      · simp
  | @start j hj =>
      dsimp only
      rw [getElem?_set_ended hj, loopHead_eq_ended]
      split
      · rename_i hji
        subst hji
        simp [hj, Stops]
      · rename_i hji
        simp [hji]
  | @failed j ec hj =>
      dsimp only
      rw [getElem?_set_ended hj]
      split
      · rename_i hji
        subst hji
        simp [hj, Stops]
      · rename_i hji
        simp [hji]
  | @serve j n hj =>
      dsimp only
      rw [getElem?_set_ended hj, loopHead_eq_ended]
      split
      · rename_i hji
        subst hji
        simp [hj, Stops]
      · rename_i hji
        simp [hji]
  | close hc =>
      dsimp only
      rw [List.getElem?_map]
      cases hp : s.ops[i]? with
      | none => simp
      | some p => cases p <;> simp [AcceptPoint.abort]

/-- In every run, an `accept_op` has ended exactly when it was resumed with the
acceptor closed or with an error, whatever the error and even with the acceptor
still open. -/
theorem run_ended (h : Run step {} tr s) (i : Nat) :
    s.ops[i]? = some .ended ↔ ∃ st, (st, AcceptEvent.resume i) ∈ tr ∧ Stops st i := by
  refine h.invariant (I := fun tr s =>
    s.ops[i]? = some .ended ↔ ∃ st, (st, AcceptEvent.resume i) ∈ tr ∧ Stops st i) ?_ ?_
  · simp
  · intro tr s e s' _ ih hs
    obtain ⟨c, hs⟩ := step_inv hs
    rw [hs.ended_iff i, ih]
    refine ⟨?_, ?_⟩
    · intro h
      rcases h with ⟨st, hmem, hstop⟩ | ⟨rfl, hstop⟩
      · exact ⟨st, List.mem_append_left _ hmem, hstop⟩
      · exact ⟨s, by simp, hstop⟩
    · intro h
      obtain ⟨st, hmem, hstop⟩ := h
      rcases List.mem_append.1 hmem with hmem | hmem
      · exact Or.inl ⟨st, hmem, hstop⟩
      · obtain ⟨rfl, rfl⟩ := Prod.mk.inj (List.mem_singleton.1 hmem)
        exact Or.inr ⟨rfl, hstop⟩

/-- An accept fails: the listener is as good as shut down, with the acceptor
open. -/
theorem run_ended_open :
    ∃ tr s, Run step {} tr s ∧ s.isOpen = true ∧
      ∃ st, (st, AcceptEvent.resume 0) ∈ tr ∧ Stops st 0 := by
  have hex : (exec step {} [.asyncAccept, .resume 0, .fail 0 (.other 24), .resume 0]).map
      (fun r => (r.2.isOpen, r.2.ops)) = some (true, [.ended]) := by decide
  obtain ⟨⟨tr, s⟩, hex, hs⟩ := Option.map_eq_some_iff.1 hex
  obtain ⟨hopen, hops⟩ := Prod.mk.inj hs
  have hrun := Run.of_exec hex
  exact ⟨tr, s, hrun, hopen, (run_ended hrun 0).1 (by rw [hops]; rfl)⟩

/-! ### Shutting down -/

/-- The acceptor is closed and nothing accepts on it. -/
def Closed (s : Acceptor) : Prop := s.isOpen = false ∧ ∀ i : Nat, s.ops[i]? ≠ some AcceptPoint.accepting

theorem closed_abort (s : Acceptor) (n : Nat) :
    Closed { s with isOpen := false, ops := s.ops.map AcceptPoint.abort, closing := n } := by
  refine ⟨rfl, ?_⟩
  intro i
  dsimp only
  rw [List.getElem?_map]
  cases s.ops[i]? with
  | none => simp
  | some p => cases p <;> simp [AcceptPoint.abort]

/-- A step with the acceptor closed: nothing is accepted and nothing begins to
accept. -/
theorem Step.closed (h : Step s e s' c) (hc : Closed s) :
    Closed s' ∧ s'.accepted = s.accepted := by
  obtain ⟨hopen, hno⟩ := hc
  have hhead : s.loopHead = .ended := loopHead_eq_ended.2 hopen
  have hset : ∀ j q, q ≠ AcceptPoint.accepting →
      ∀ i : Nat, (s.ops.set j q)[i]? ≠ some AcceptPoint.accepting := by
    intro j q hq i
    rw [List.getElem?_set]
    split
    · split
      · simpa using hq
      · simp
    · exact hno i
  cases h with
  | asyncAccept =>
      refine ⟨⟨hopen, ?_⟩, rfl⟩
      intro i
      dsimp only
      rw [List.getElem?_append]
      split
      · exact hno i
      · rw [List.getElem?_singleton]
        split <;> simp
  | shutdown => exact ⟨⟨hopen, hno⟩, rfl⟩
  | @accept j hj => exact absurd hj (hno j)
  | @fail j ec hj => exact absurd hj (hno j)
  | start hj => exact ⟨⟨hopen, hset _ _ (by simp [hhead])⟩, rfl⟩
  | failed hj => exact ⟨⟨hopen, hset _ _ (by simp)⟩, rfl⟩
  | serve hj => exact ⟨⟨hopen, hset _ _ (by simp [hhead])⟩, rfl⟩
  | close hc => exact ⟨closed_abort s _, rfl⟩

/-- What the handlers still have to do: the `accept_op`s that have not ended, and
the posted handlers of `shutdown`. -/
def toDo (s : Acceptor) : Nat := s.ops.countP (· ≠ .ended) + s.closing

/-- An event that the user does not cause. -/
def AcceptEvent.IsOwn (e : AcceptEvent) : Prop := e ≠ .asyncAccept ∧ e ≠ .shutdown

theorem countP_set_ended {l : List AcceptPoint} {i : Nat} {p : AcceptPoint} (hi : l[i]? = some p)
    (hp : p ≠ .ended) :
    (l.set i .ended).countP (· ≠ .ended) + 1 = l.countP (· ≠ .ended) := by
  obtain ⟨hlt, hget⟩ := List.getElem?_eq_some_iff.1 hi
  have hpos : 0 < l.countP (· ≠ .ended) :=
    List.countP_pos_iff.2 ⟨p, List.mem_of_getElem? hi, by simpa using hp⟩
  rw [List.countP_set hlt, hget, if_pos (by simpa using hp), if_neg (by simp)]
  omega

theorem countP_abort (l : List AcceptPoint) :
    (l.map AcceptPoint.abort).countP (· ≠ .ended) = l.countP (· ≠ .ended) := by
  rw [List.countP_map]
  congr 1
  funext p
  cases p <;> rfl

/-- With the acceptor closed, every event of the listener's own leaves it less to
do. -/
theorem Step.toDo_lt (h : Step s e s' c) (hc : Closed s) (he : AcceptEvent.IsOwn e) :
    s'.toDo < s.toDo := by
  obtain ⟨hopen, hno⟩ := hc
  have hhead : s.loopHead = .ended := loopHead_eq_ended.2 hopen
  cases h with
  | asyncAccept => exact absurd rfl he.1
  | shutdown => exact absurd rfl he.2
  | @accept j hj => exact absurd hj (hno j)
  | @fail j ec hj => exact absurd hj (hno j)
  | start hj =>
      have := countP_set_ended hj (by simp)
      simp only [toDo, hhead]
      omega
  | failed hj =>
      have := countP_set_ended hj (by simp)
      simp only [toDo]
      omega
  | serve hj =>
      have := countP_set_ended hj (by simp)
      simp only [toDo, hhead]
      omega
  | close hc =>
      simp only [toDo, countP_abort]
      omega

theorem run_closed {s₀ : Acceptor} (h : Run step s₀ tr s) (hc : Closed s₀) :
    Closed s ∧ s.accepted = s₀.accepted := by
  refine h.invariant (I := fun _ s => Closed s ∧ s.accepted = s₀.accepted) ⟨hc, rfl⟩ ?_
  intro tr s e s' _ ih hs
  obtain ⟨c, hs⟩ := step_inv hs
  obtain ⟨hc', ha⟩ := hs.closed ih.1
  exact ⟨hc', ha.trans ih.2⟩

/-- From the moment the handler of `shutdown` has run, in every run: no connection
is accepted any more and no accept is outstanding; left to itself the listener
comes to rest; and when all its `accept_op`s have ended, every connection that
was accepted has its `server_op`. -/
theorem run_shutdown (h : Run step {} tr s) {st : Acceptor} (hclose : (st, .close) ∈ tr) :
    Closed s ∧ s.accepted = st.accepted ∧ ¬Forever step AcceptEvent.IsOwn s ∧
      ((∀ p ∈ s.ops, p = .ended) → s.served.Perm (List.range st.accepted)) := by
  obtain ⟨before, after, rfl⟩ := List.append_of_mem hclose
  obtain ⟨s₁, -, hstep, hafter⟩ := h.cut
  have hs₁ : Closed s₁ ∧ s₁.accepted = st.accepted := by
    obtain ⟨c, hs⟩ := step_inv hstep
    cases hs with
    | close hc => exact ⟨closed_abort st _, rfl⟩
  obtain ⟨hclosed, hacc⟩ := run_closed hafter hs₁.1
  have hacc : s.accepted = st.accepted := hacc.trans hs₁.2
  refine ⟨hclosed, hacc, ?_, ?_⟩
  · refine not_forever_of_measure toDo ?_ hclosed
    intro s e s' hc he hs
    obtain ⟨c, hs⟩ := step_inv hs
    exact ⟨(hs.closed hc).1, hs.toDo_lt hc he⟩
  · intro hended
    have hwaiting : s.waiting = [] := by
      rw [waiting, List.filterMap_eq_nil_iff]
      intro p hp
      rw [hended p hp]
      rfl
    have howned : (s.served ++ s.waiting).Perm (List.range s.accepted) := run_owned h
    rwa [hwaiting, List.append_nil, hacc] at howned

/-- Two connections on one `accept_op`; the second is accepted before `shutdown`
runs and served after it. -/
def lateConnection : List AcceptEvent :=
  [.asyncAccept, .resume 0, .accept 0, .resume 0, .accept 0, .shutdown, .close, .resume 0]

theorem run_shutdown_late :
    ∃ tr s st, Run step {} tr s ∧ (st, .close) ∈ tr ∧ s.accepted = st.accepted ∧
      s.served.Perm (List.range st.accepted) := by
  have hex : (exec step {} lateConnection).map (fun r => (r.2.ops, r.1.map Prod.snd)) =
      some ([.ended], lateConnection) := by decide
  obtain ⟨⟨tr, s⟩, hex, hs⟩ := Option.map_eq_some_iff.1 hex
  obtain ⟨hops, htr⟩ := Prod.mk.inj hs
  have hrun := Run.of_exec hex
  have hmem : AcceptEvent.close ∈ tr.map Prod.snd := by
    rw [htr]
    decide
  obtain ⟨⟨st, e⟩, hst, rfl⟩ := List.mem_map.1 hmem
  obtain ⟨-, hacc, -, hserved⟩ := run_shutdown hrun hst
  refine ⟨tr, s, st, hrun, hst, hacc, hserved ?_⟩
  intro p hp
  rw [hops] at hp
  exact List.mem_singleton.1 hp

end Acceptor

/-! ### The listener with its connections -/

/-- A connection just accepted, with the options `accept_op` gives it. -/
def Session.ofSocket (ctx : Bool) : Session :=
  { opts := { sslCtx := ctx, verifyPeerCert := false }
    stream := if ctx then .ssl ⟨true⟩ {} else .plain ⟨true⟩ }

theorem isSsl_ofSocket (ctx : Bool) : (Session.ofSocket ctx).stream.isSsl = ctx := by
  cases ctx <;> rfl

/-- A `server_op` under way. -/
abbrev Connection := Coroutine (Marked ServerMark) SessionOp Answer Outcome

/-- The acceptor and the `server_op`s. -/
abbrev Listener := Pool Acceptor Connection

namespace Listener

/-- The `server_op` of a connection, with the handler the factory makes for it. -/
def serve (ctx : Bool) (factory : Nat → Routine Outcome) (c : Nat) : Connection :=
  (markedNet ServerMark).enter (Session.ofSocket ctx, []) (ServerOp.run (factory c))

def acceptStep (ctx : Bool) (factory : Nat → Routine Outcome) (s : Acceptor) (e : AcceptEvent) :
    Option (Acceptor × Option Connection) :=
  (s.stepServing e).map fun r => (r.1, r.2.map (serve ctx factory))

def step (ctx : Bool) (factory : Nat → Routine Outcome) :
    Listener → PoolEvent AcceptEvent (ScriptEvent Answer Unit) → Option Listener :=
  Pool.step (acceptStep ctx factory) (markedNet ServerMark).step

variable {ctx : Bool} {factory : Nat → Routine Outcome} {s : Listener}
  {tr : List (Listener × PoolEvent AcceptEvent (ScriptEvent Answer Unit))}

/-- The strand of a listener makes a run of the acceptor. -/
theorem run_acceptor (h : Run (step ctx factory) ⟨{}, []⟩ tr s) :
    Run Acceptor.step {} (Pool.parentTrace tr) s.parent := by
  have hstep : Pool.parentStep (acceptStep ctx factory) = Acceptor.step := by
    funext s e
    simp only [Pool.parentStep, acceptStep, Acceptor.step, Option.map_map]
    rfl
  exact hstep ▸ Pool.run_parent h

/-- The `server_op`s posted so far, as they were posted. -/
def starts (ctx : Bool) (factory : Nat → Routine Outcome) (s : Acceptor) : List Connection :=
  s.served.map (serve ctx factory)

theorem starts_step (p : Acceptor) (e : AcceptEvent) (p' : Acceptor) (c : Option Connection)
    (h : acceptStep ctx factory p e = some (p', c)) :
    starts ctx factory p' = starts ctx factory p ++ c.toList := by
  obtain ⟨⟨p₁, n⟩, hs, heq⟩ := Option.map_eq_some_iff.1 h
  obtain ⟨rfl, rfl⟩ := Prod.mk.inj heq
  rw [starts, (Acceptor.stepServing_inv hs).served, List.map_append]
  cases n <;> rfl

/-- Every `server_op` of a listener makes a run of its own. -/
theorem run_apart (h : Run (step ctx factory) ⟨{}, []⟩ tr s) :
    Pool.Apart (markedNet ServerMark).step (starts ctx factory s.parent) tr s.children :=
  Pool.run_children h rfl starts_step

/-- In every run of a listener, with any handlers and in whatever order things
happen: each accepted connection is served by one `server_op` or waits for it;
and each of those has lived the beginning of a life, and if it is through a whole
one, with its socket closed at the end. -/
theorem run_lives (h : Run (step ctx factory) ⟨{}, []⟩ tr s) :
    s.parent.Owned ∧ s.children.length = s.parent.served.length ∧
      ∀ c ∈ s.children, ServerOp.Serving ctx c.world ∧
        ∀ a, c.result = some (.completed a) →
          ServerOp.Life ctx c.world.2 ∧ c.world.1.isOpen = false := by
  obtain ⟨hlen, -, hruns⟩ := run_apart h
  refine ⟨Acceptor.run_owned (run_acceptor h), ?_, ?_⟩
  · rw [← hlen, starts, List.length_map]
  · intro c hc
    obtain ⟨i, hi⟩ := List.mem_iff_getElem?.1 hc
    obtain ⟨c₀, hstart, hrun⟩ := hruns i c hi
    rw [starts, List.getElem?_map] at hstart
    obtain ⟨n, -, rfl⟩ := Option.map_eq_some_iff.1 hstart
    have hlife := Surroundings.run_wp hrun (ServerOp.wp_run (Session.ofSocket ctx) (factory n))
    rw [isSsl_ofSocket] at hlife
    exact ⟨hlife.1, fun a ha => hlife.2 _ ha a rfl⟩

/-- One connection with TLS, whose handshake fails: no handler, and the socket is
closed. -/
theorem run_lives_refused :
    ∃ tr s, Run (step true fun _ => complete none) ⟨{}, []⟩ tr s ∧
      ∃ c ∈ s.children, c.world.2 =
          [.handshake, .handshakeDone (some .eof), .shutdown, .shutdownDone] ∧
        c.world.1.isOpen = false := by
  have hex : (exec (step true fun _ => complete none) ⟨{}, []⟩
      ([.asyncAccept, .resume 0, .accept 0, .resume 0].map .parent ++
        [.complete {}, .deliver, .complete { ec := some .eof }, .deliver, .complete {}, .deliver,
          .complete {}, .deliver, .complete {}, .deliver, .complete {}, .deliver,
          .complete {}, .deliver].map (.child 0))).map
      (fun r => r.2.children.map fun c => (c.result, c.world.2)) =
      some [(some (.completed {}),
        [.handshake, .handshakeDone (some .eof), .shutdown, .shutdownDone])] := by decide
  obtain ⟨⟨tr, s⟩, hex, hs⟩ := Option.map_eq_some_iff.1 hex
  have hrun := Run.of_exec hex
  obtain ⟨c, hc, hres⟩ := List.mem_map.1 (hs ▸ List.mem_singleton_self _)
  obtain ⟨hres, hmarks⟩ := Prod.mk.inj hres
  obtain ⟨-, -, hconn⟩ := run_lives hrun
  exact ⟨tr, s, hrun, c, hc, hmarks, ((hconn c hc).2 {} hres).2⟩

end Listener

end Foxy
