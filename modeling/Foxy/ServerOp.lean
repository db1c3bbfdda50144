import Foxy.Session.Marked
import Foxy.Session.Server

/-!
# Foxy.ServerOp

The life of one connection of a listener (`server_op` in `foxy/listener.hpp`):
the handshake on a TLS stream, the user's handler unless that failed, and the
shutdown. The handler is any routine of the session.
-/

namespace Foxy

open Lib Session

/-- What `server_op` begins and what it gets back from. -/
inductive ServerMark
  | handshake
  | handshakeDone (ec : Option ErrorCode)
  | handler
  | handlerDone
  | shutdown
  | shutdownDone
  deriving Repr, DecidableEq

namespace ServerOp

/-- From the label `shutdown` on. -/
def shutdown : MarkedScript ServerMark :=
  .modify (mark .shutdown)
    (andThen serverShutdown fun a => .modify (mark .shutdownDone) (.done (.completed a)))

/-- From the handler on: both its outcomes lead to `shutdown`. -/
def handle (handler : Routine Outcome) : MarkedScript ServerMark :=
  .modify (mark .handler) (andThen handler fun _ => .modify (mark .handlerDone) shutdown)

/-- `server_op`. -/
def run (handler : Routine Outcome) : MarkedScript ServerMark :=
  andThen posted fun _ =>
    .look fun v =>
      if v.1.stream.isSsl then
        .modify (mark .handshake)
          (andThen asyncHandshake fun a =>
            .modify (mark (.handshakeDone a.ec))
              (if a.ec.isSome then shutdown else handle handler))
      else handle handler

/-- The lives a connection can have. -/
inductive Life (isSsl : Bool) : List ServerMark → Prop
  | plain (h : isSsl = false) : Life isSsl [.handler, .handlerDone, .shutdown, .shutdownDone]
  | secured (h : isSsl = true) :
      Life isSsl
        [.handshake, .handshakeDone none, .handler, .handlerDone, .shutdown, .shutdownDone]
  | refused (h : isSsl = true) (ec : ErrorCode) :
      Life isSsl [.handshake, .handshakeDone (some ec), .shutdown, .shutdownDone]

/-- At its end the socket is closed. -/
abbrev Served (isSsl : Bool) : Outcome → Marked ServerMark → Prop :=
  Lived (Life isSsl) fun _ s => s.isOpen = false

abbrev Serving (isSsl : Bool) (v : Marked ServerMark) : Prop := Living (Life isSsl) v.2

variable {isSsl : Bool} {marks : List ServerMark} {s : Session} {handler : Routine Outcome}

theorem Life.exists (isSsl : Bool) : ∃ life, Life isSsl life := by
  cases isSsl with
  | false => exact ⟨_, .plain rfl⟩
  | true => exact ⟨_, .secured rfl⟩

theorem wp_shutdown (h : Life isSsl (marks ++ [.shutdown, .shutdownDone])) :
    (markedNet ServerMark).wp (Serving isSsl) shutdown (Served isSsl) (s, marks) := by
  have hlife : Life isSsl (marks ++ [.shutdown] ++ [.shutdownDone]) := by simpa using h
  refine wp_andThen (wp_serverShutdown s) (living hlife) ?_
  intro a s' hs'
  refine ⟨⟨_, hlife, List.prefix_rfl⟩, ?_⟩
  intro b _
  exact ⟨hlife, hs'.2.2⟩

theorem wp_handle (h : Life isSsl (marks ++ [.handler, .handlerDone, .shutdown, .shutdownDone])) :
    (markedNet ServerMark).wp (Serving isSsl) (handle handler) (Served isSsl) (s, marks) := by
  have hlife : Life isSsl (marks ++ [.handler] ++ [.handlerDone, .shutdown, .shutdownDone]) := by
    simpa using h
  refine wp_andThen (Surroundings.wp_trivial handler) (living hlife) ?_
  intro a s' _
  refine wp_shutdown ?_
  simpa using h

/-- Whatever the handler does, and however the peer and the timer behave, a
`server_op` marks the beginning of a life, and at its end a whole one. -/
theorem wp_run (s : Session) (handler : Routine Outcome) :
    (markedNet ServerMark).wp (Serving s.stream.isSsl) (run handler) (Served s.stream.isSsl)
      (s, []) := by
  obtain ⟨life, hlife⟩ := Life.exists s.stream.isSsl
  have hstart : Life s.stream.isSsl ([] ++ life) := hlife
  refine wp_andThen (wp_posted s) (living hstart) ?_
  intro _ s' hs'
  rw [Surroundings.wp_look]
  split
  · rename_i hssl
    have hssl : s.stream.isSsl = true := hs'.symm.trans hssl
    have hlife : Life s.stream.isSsl ([.handshake] ++ [.handshakeDone none, .handler, .handlerDone,
        .shutdown, .shutdownDone]) := .secured hssl
    refine wp_andThen (wp_asyncHandshake s') (living hlife) ?_
    intro a s'' _
    cases hec : a.ec with
    | none =>
        refine wp_handle ?_
        exact .secured hssl
    | some ec =>
        refine wp_shutdown ?_
        exact .refused hssl ec
  · rename_i hplain
    refine wp_handle (.plain ?_)
    rw [← hs']
    simpa using hplain

end ServerOp

end Foxy
