import Foxy.Lib.Pool
import Foxy.ProxyAccept
import Foxy.ProxyRuns

/-!
# Foxy.ProxyServer

The whole proxy: the accept loop and the connections it has posted an
`async_connect_op` for, in any interleaving.
-/

namespace Foxy

open Http Lib Detail

abbrev ProxyServer := Pool ProxyLoop Proxy

namespace ProxyServer

/-- The accept loop, with the `async_connect_op` a step posts. -/
def acceptStep (s : ProxyLoop) (e : LoopEvent) : Option (ProxyLoop × Option Proxy) :=
  (s.step e).map fun s' =>
    (s', if s.served.length < s'.served.length then some Proxy.start else none)

def step (clientSsl : Bool) (buffer : Buffer) :
    ProxyServer → PoolEvent LoopEvent ProxyEvent → Option ProxyServer :=
  Pool.step acceptStep (Proxy.step clientSsl buffer)

/-- The connections posted so far, as they were posted. -/
def starts (s : ProxyLoop) : List Proxy := s.served.map fun _ => Proxy.start

/-- `loop` serves one stream at most. -/
theorem loop_served (s : ProxyLoop) (ec : Option ErrorCode) :
    (s.loop ec).served = s.served ∨ ∃ stream, (s.loop ec).served = s.served ++ [stream] := by
  unfold ProxyLoop.loop
  split
  · exact Or.inl rfl
  · exact Or.inl rfl
  · split
    · exact Or.inl rfl
    · exact Or.inl rfl
    · exact Or.inr ⟨s.stream, rfl⟩
  · exact Or.inl rfl

theorem step_served {s s' : ProxyLoop} {e : LoopEvent} (h : s.step e = some s') :
    s'.served = s.served ∨ ∃ stream, s'.served = s.served ++ [stream] := by
  cases ProxyLoop.step_inv h with
  | asyncAccept => exact loop_served s none
  | cancel => exact Or.inl rfl
  | runPost hp => exact loop_served { s with posts := s.posts - 1 } none
  | runCancel hc => exact Or.inl rfl
  | accept hi => exact Or.inl rfl
  | fail hi hec => exact Or.inl rfl
  | @deliver i result hi =>
      unfold ProxyLoop.onAccept
      split
      · exact loop_served { s with accepts := s.accepts.eraseIdx i } _
      · split
        · exact loop_served { s with accepts := s.accepts.eraseIdx i } _
        · exact loop_served { s with accepts := s.accepts.eraseIdx i, stream := _ } _

theorem starts_step (p : ProxyLoop) (e : LoopEvent) (p' : ProxyLoop) (c : Option Proxy)
    (h : acceptStep p e = some (p', c)) : starts p' = starts p ++ c.toList := by
  obtain ⟨p₁, hs, heq⟩ := Option.map_eq_some_iff.1 h
  obtain ⟨rfl, rfl⟩ := Prod.mk.inj heq
  rcases step_served hs with hserved | ⟨stream, hserved⟩
  · simp [starts, hserved]
  · simp [starts, hserved]

variable {clientSsl : Bool} {buffer : Buffer} {s : ProxyServer}
  {tr : List (ProxyServer × PoolEvent LoopEvent ProxyEvent)}

/-- The strand of a proxy makes a run of the accept loop. -/
theorem run_loop (h : Run (step clientSsl buffer) ⟨{}, []⟩ tr s) :
    Run ProxyLoop.step {} (Pool.parentTrace tr) s.parent := by
  have hstep : Pool.parentStep acceptStep = ProxyLoop.step := by
    funext s e
    simp only [Pool.parentStep, acceptStep, Option.map_map]
    exact Option.map_id'
  exact hstep ▸ Pool.run_parent h

/-- In every run of the proxy in which `async_accept` is not called while the loop
is under way, with any number of connections and their steps in any order: the
connections are served in the order in which they were accepted, none is lost,
and on each of them no more heads are written to the client than request headers
were read from it. -/
theorem run_connections (h : Run (step clientSsl buffer) ⟨{}, []⟩ tr s)
    (hone : ∀ x ∈ Pool.parentTrace tr, ProxyLoop.NotReentered x) :
    s.parent.served ++ s.parent.held = ProxyLoop.firstServed s.parent.accepted ∧
      ∀ (i : Nat) c, s.children[i]? = some c →
        s.parent.served[i]? = some (some i) ∧
          (Pool.childTrace i tr).countP Proxy.writesHead ≤
            (Pool.childTrace i tr).countP Proxy.readsHeader := by
  have hserved := (ProxyLoop.run_served (run_loop h) hone).1
  obtain ⟨hlen, -, hruns⟩ : Pool.Apart (Proxy.step clientSsl buffer) (starts s.parent) tr
      s.children := Pool.run_children h rfl starts_step
  refine ⟨hserved, ?_⟩
  intro i c hc
  obtain ⟨c₀, hstart, hrun⟩ := hruns i c hc
  rw [starts, List.getElem?_map] at hstart
  obtain ⟨stream, hstream, rfl⟩ := Option.map_eq_some_iff.1 hstart
  refine ⟨?_, (Proxy.run_balanced hrun).over⟩
  have hfirst : (ProxyLoop.firstServed s.parent.accepted)[i]? = some stream := by
    rw [← hserved, List.getElem?_append_left (List.getElem?_eq_some_iff.1 hstream).1, hstream]
  rw [ProxyLoop.firstServed, List.getElem?_map] at hfirst
  obtain ⟨j, hj, rfl⟩ := Option.map_eq_some_iff.1 hfirst
  obtain ⟨hi, rfl⟩ := List.getElem?_eq_some_iff.1 hj
  simpa using hstream

/-- Two connections, the second accepted while the first is being read from. -/
theorem run_connections_two :
    ∃ tr s, Run (step false BodyLoop.zeros) ⟨{}, []⟩ tr s ∧ s.children.length = 2 ∧
      s.parent.served ++ s.parent.held = ProxyLoop.firstServed s.parent.accepted := by
  have hex : (exec (step false BodyLoop.zeros) ⟨{}, []⟩
      [.parent .asyncAccept, .parent .runPost, .parent (.accept 0), .parent (.deliver 0),
        .child 0 (.tunnel (.header (.error []))), .parent (.accept 0), .parent (.deliver 0),
        .child 0 (.shutdown none), .child 1 (.tunnel (.header (.error [])))]).map
      (fun r => (r.2.children.length, (Pool.parentTrace r.1).all fun x =>
        x.2 != .asyncAccept || x.1.point == .start)) = some (2, true) := by rfl
  obtain ⟨⟨tr, s⟩, hex, hs⟩ := Option.map_eq_some_iff.1 hex
  obtain ⟨hlen, hone⟩ := Prod.mk.inj hs
  have hrun := Run.of_exec hex
  refine ⟨tr, s, hrun, hlen, (run_connections hrun ?_).1⟩
  intro x hx heq
  have hx := List.all_eq_true.1 hone x hx
  simp only [heq, bne_self_eq_false, Bool.false_or, beq_iff_eq] at hx
  exact Or.inl hx

end ProxyServer

end Foxy
