import Foxy.Session.Client
import Foxy.Session.Marked

/-!
# Foxy.Speak

`speak` (`foxy/speak.hpp`): connect, hand the session to the user's handler, shut
down.

The handler is passed on as `std::bind(handler, _1, ec, 0)` with the `ec` of the
connect: whenever it is resumed, by whatever operation, it is called with that.
-/

namespace Foxy

open Lib Session

/-- What the handler does when it is called: complete, or run a routine of the
session and go on with what it is then called with. -/
inductive Handler
  | complete (a : Answer)
  | call (p : Routine Outcome) (k : Answer → Session → Handler)

/-- `std::bind(handler, _1, ec, 0)`: what the routines answer is dropped. -/
def Handler.bound (a : Answer) : Handler → Routine Outcome
  | .complete b => .done (.completed b)
  | .call p k =>
    p.bind fun o =>
      match o with
      | .completed _ => .look fun s => (k a s).bound a
      | _ => .done o

/-- What `speak_op` begins and what it gets back from. -/
inductive SpeakMark
  | connect
  | connectDone (ec : Option ErrorCode)
  /-- The handler begins, called with `ec`. -/
  | handler (ec : Option ErrorCode)
  | handlerDone
  | shutdown
  | shutdownDone
  deriving Repr, DecidableEq

namespace Speak

/-- From the shutdown on. -/
def shutdown : MarkedScript SpeakMark :=
  .modify (mark .shutdown)
    (andThen clientShutdown fun a => .modify (mark .shutdownDone) (.done (.completed a)))

/-- From the handler on. -/
def handle (handler : Answer → Session → Handler) (a : Answer) : MarkedScript SpeakMark :=
  .modify (mark (.handler a.ec))
    (andThen (.look fun s => (handler a s).bound a) fun _ => .modify (mark .handlerDone) shutdown)

/-- `speak_op`. -/
def run (host service : Bytes) (handler : Answer → Session → Handler) : MarkedScript SpeakMark :=
  andThen posted fun _ =>
    .modify (mark .connect)
      (andThen (asyncConnect host service) fun a =>
        .modify (mark (.connectDone a.ec)) (handle handler { ec := a.ec }))

/-- The one life of a `speak_op`: a failed connect changes nothing in its course,
and the handler is told. -/
inductive Life : List SpeakMark → Prop
  | intro (ec : Option ErrorCode) :
      Life [.connect, .connectDone ec, .handler ec, .handlerDone, .shutdown, .shutdownDone]

/-- A shutdown without error closes the socket. -/
abbrev Spoken : Outcome → Marked SpeakMark → Prop :=
  Lived Life fun a s => a.ec = none → s.isOpen = false

abbrev Speaking (v : Marked SpeakMark) : Prop := Living Life v.2

variable {marks : List SpeakMark} {s s₀ : Session} {host service : Bytes}
  {handler : Answer → Session → Handler}

theorem wp_shutdown (h : Life (marks ++ [.shutdown, .shutdownDone])) :
    (markedNet SpeakMark).wp Speaking shutdown Spoken (s, marks) := by
  have hlife : Life (marks ++ [.shutdown] ++ [.shutdownDone]) := by simpa using h
  refine wp_andThen (wp_clientShutdown s) (living hlife) ?_
  intro a s' hs'
  refine ⟨⟨_, hlife, List.prefix_rfl⟩, ?_⟩
  intro b hb
  refine ⟨hlife, ?_⟩
  intro hnone
  obtain ⟨a', ha', hend⟩ := hs'
  obtain rfl : a = b := by simpa using hb
  obtain rfl : a = a' := by simpa using ha'
  rcases hend with ⟨-, hclosed⟩ | ⟨-, -, hfail, -⟩
  · exact hclosed
  · exact absurd hnone hfail

theorem wp_handle {a : Answer}
    (h : Life (marks ++ [.handler a.ec, .handlerDone, .shutdown, .shutdownDone])) :
    (markedNet SpeakMark).wp Speaking (handle handler a) Spoken (s, marks) := by
  have hlife : Life (marks ++ [.handler a.ec] ++ [.handlerDone, .shutdown, .shutdownDone]) := by
    simpa using h
  refine wp_andThen (Surroundings.wp_trivial _) (living hlife) ?_
  intro _ s' _
  refine wp_shutdown ?_
  simpa using h

theorem wp_run (s : Session) (host service : Bytes) (handler : Answer → Session → Handler) :
    (markedNet SpeakMark).wp Speaking (run host service handler) Spoken (s, []) := by
  have hlife : ∀ ec, Life ([.connect] ++ [.connectDone ec, .handler ec, .handlerDone, .shutdown,
      .shutdownDone]) := .intro
  have hstart : Life ([] ++ [.connect, .connectDone none, .handler none, .handlerDone, .shutdown,
      .shutdownDone]) := .intro none
  refine wp_andThen (wp_posted s) (living hstart) ?_
  intro _ s₁ _
  refine wp_andThen (wp_asyncConnect s₁ host service) (living (hlife none)) ?_
  intro a s₂ _
  refine wp_handle ?_
  exact .intro a.ec

section runs

variable {tr : List (Coroutine (Marked SpeakMark) SessionOp Answer Outcome ×
    ScriptEvent Answer Unit)}
  {c : Coroutine (Marked SpeakMark) SessionOp Answer Outcome}

/-- In every run of `speak`, whatever the handler does: the connect, the handler
and the shutdown happen in this order and once, the handler and the shutdown also
where the connect failed, and the handler is called with what the connect
reported. Where the shutdown reports no error the socket is closed. -/
theorem run_life
    (hr : Run (markedNet SpeakMark).step
      ((markedNet SpeakMark).enter (s₀, []) (run host service handler)) tr c) :
    Speaking c.world ∧
      ∀ a, c.result = some (.completed a) →
        Life c.world.2 ∧ (a.ec = none → c.world.1.isOpen = false) := by
  obtain ⟨hliving, hend⟩ := Surroundings.run_wp hr (wp_run s₀ host service handler)
  exact ⟨hliving, fun a ha => hend _ ha a rfl⟩

/-- The name cannot be resolved: handler and shutdown follow all the same. -/
theorem run_life_unresolved :
    ∃ tr c, Run (markedNet SpeakMark).step ((markedNet SpeakMark).enter (ofOpts {}, [])
        (run (ascii "a.example") (ascii "80") fun a _ => .complete a)) tr c ∧
      c.world.2 = [.connect, .connectDone (some (.other 1)), .handler (some (.other 1)),
        .handlerDone, .shutdown, .shutdownDone] ∧
      c.world.1.isOpen = false := by
  have hex : (exec (markedNet SpeakMark).step ((markedNet SpeakMark).enter (ofOpts {}, [])
      (run (ascii "a.example") (ascii "80") fun a _ => .complete a))
      [.complete {}, .deliver, .complete { ec := some (.other 1) }, .deliver, .complete {},
        .deliver, .complete {}, .deliver]).map (fun r => (r.2.result, r.2.world.2)) =
      some (some (.completed {}), [.connect, .connectDone (some (.other 1)),
        .handler (some (.other 1)), .handlerDone, .shutdown, .shutdownDone]) := by decide
  obtain ⟨⟨tr, c⟩, hex, hc⟩ := Option.map_eq_some_iff.1 hex
  obtain ⟨hc, hmarks⟩ := Prod.mk.inj hc
  have hrun := Run.of_exec hex
  exact ⟨tr, c, hrun, hmarks, ((run_life hrun).2 {} hc).2 rfl⟩

end runs

end Speak

end Foxy
