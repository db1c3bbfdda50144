import Foxy.Detail.BodyLoop
import Foxy.Detail.ExportConnectFields

/-!
# Foxy.Detail.Relay

`relay_op` (`foxy/detail/relay.hpp`): one request is read from the server
session's peer and forwarded to the client session's, then one response the
other way, each as a rewritten header and a body loop.

`Relay` is the operation at a suspension point, `Relay.step` what it does from
there when resumed. A header that was read comes with the payload behind it,
which the parser then delivers piece by piece; where the header announces no
body there is none.
-/

namespace Foxy.Detail

open Http Lib

/-- A message as it arrives: its header and the payload behind it. -/
structure Incoming (S : Type) where
  header : Header S
  payload : Bytes

/-- The parser once the header is read, `headerOnly` saying whether it is done
with that. -/
def Incoming.source {S : Type} (m : Incoming S) (headerOnly : Bool) : Option Source :=
  if h : headerOnly = true → m.payload = [] then some ⟨m.payload, headerOnly, h⟩ else none

/-- Where the relay is suspended. A header to be written is the rewritten one. -/
inductive RelayPoint
  | readRequest
  | writeRequest (header : Request) (source : Source)
  | requestBody (loop : BodyLoop)
  | readResponse
  | writeResponse (header : Response) (source : Source)
  | responseBody (loop : BodyLoop)
  /-- The handler was called with these. -/
  | complete (ec : Option Error) (closeTunnel : Bool)

/-- The operation at a suspension point: `s.buffer`, the exported fields and
`s.close_tunnel`. -/
structure Relay where
  point : RelayPoint
  buffer : Buffer
  reqFields : Fields
  resFields : Fields
  closeTunnel : Bool

/-- What the relay is resumed with. Reads of a header give the message or an
error message, writes of one succeed or fail. -/
inductive RelayEvent
  | readRequest (result : Except Bytes (Incoming RequestLine))
  | writeRequest (failure : Option Bytes)
  | requestBody (e : BodyEvent)
  | readResponse (result : Except Bytes (Incoming StatusLine))
  | writeResponse (failure : Option Bytes)
  | responseBody (e : BodyEvent)

namespace Relay

/-- `upcall: this->complete(is_continuation, ec, true)`. -/
def upcall (s : Relay) (ec : Option Error) : Relay := { s with point := .complete ec true }

/-- From the request's header to the write of the rewritten one. -/
def onRequest (s : Relay) (m : Incoming RequestLine) : Option Relay :=
  (m.source (Request.headerOnly m.header)).map fun source =>
    match rewriteHeader s.closeTunnel s.reqFields m.header with
    | none => { s with closeTunnel := s.closeTunnel || !m.header.keepAlive }.upcall none
    | some r => { s with
        closeTunnel := r.closeTunnel, reqFields := r.exported, point := .writeRequest r.header source }

/-- From the response's header to the write of the rewritten one. -/
def onResponse (s : Relay) (m : Incoming StatusLine) : Option Relay :=
  (m.source (Response.headerOnly m.header)).map fun source =>
    match rewriteHeader s.closeTunnel s.resFields m.header with
    | none => { s with closeTunnel := s.closeTunnel || !m.header.keepAlive }.upcall none
    | some r => { s with
        closeTunnel := r.closeTunnel, resFields := r.exported, point := .writeResponse r.header source }

/-- From the request's body loop on. -/
def afterRequestBody (s : Relay) (loop : BodyLoop) : Relay :=
  match loop.point with
  | .finished => { s with buffer := loop.buffer, point := .readResponse }
  | .upcall ec => { s with buffer := loop.buffer }.upcall ec
  | _ => { s with point := .requestBody loop }

/-- From the response's body loop on. -/
def afterResponseBody (s : Relay) (loop : BodyLoop) : Relay :=
  match loop.point with
  | .finished => { s with buffer := loop.buffer, point := .complete none s.closeTunnel }
  | .upcall ec => { s with buffer := loop.buffer }.upcall ec
  | _ => { s with point := .responseBody loop }

/-- The operation as its constructors leave it: `given` is the request of the
second one, whose header has been read. -/
def start (buffer : Buffer) (given : Option (Incoming RequestLine)) : Option Relay :=
  let s : Relay := ⟨.readRequest, buffer, [], [], false⟩
  match given with
  | none => some s
  | some m => s.onRequest m

def step (s : Relay) (e : RelayEvent) : Option Relay :=
  match s.point, e with
  | .readRequest, .readRequest (.error message) => some (s.upcall (some (.failure message)))
  | .readRequest, .readRequest (.ok m) => s.onRequest m
  | .writeRequest _ _, .writeRequest (some message) => some (s.upcall (some (.failure message)))
  | .writeRequest header source, .writeRequest none =>
    some { s with point := .requestBody (BodyLoop.start s.buffer source header.chunked) }
  | .requestBody loop, .requestBody e => (loop.step e).map s.afterRequestBody
  | .readResponse, .readResponse (.error message) => some (s.upcall (some (.failure message)))
  | .readResponse, .readResponse (.ok m) => s.onResponse m
  | .writeResponse _ _, .writeResponse (some message) => some (s.upcall (some (.failure message)))
  | .writeResponse header source, .writeResponse none =>
    some { s with point := .responseBody (BodyLoop.start s.buffer source header.chunked) }
  | .responseBody loop, .responseBody e => (loop.step e).map s.afterResponseBody
  | _, _ => none

/-! ### One step -/

theorem source_eq_some {S : Type} {m : Incoming S} {headerOnly : Bool} {source : Source}
    (h : m.source headerOnly = some source) : source.rest = m.payload := by
  unfold Incoming.source at h
  by_cases hd : headerOnly = true → m.payload = []
  · rw [dif_pos hd, Option.some.injEq] at h
    rw [← h]
  · rw [dif_neg hd] at h
    cases h

/-- A header ends the operation where it has been here before, or goes on
rewritten. -/
theorem onRequest_eq_some {s s' : Relay} {m : Incoming RequestLine} (h : s.onRequest m = some s') :
    s'.closeTunnel = (s.closeTunnel || !m.header.keepAlive) ∧ s'.buffer = s.buffer ∧
      ((hasFoxyVia m.header.fields = true ∧ s'.point = .complete none true) ∨
        ∃ r source, hasFoxyVia m.header.fields = false ∧
          rewriteHeader s.closeTunnel s.reqFields m.header = some r ∧ source.rest = m.payload ∧
          s'.point = .writeRequest r.header source) := by
  obtain ⟨source, hsource, rfl⟩ := Option.map_eq_some_iff.1 h
  cases hr : rewriteHeader s.closeTunnel s.reqFields m.header with
  | none => exact ⟨rfl, rfl, Or.inl ⟨by simpa [rewriteHeader] using hr, rfl⟩⟩
  | some r =>
      obtain ⟨hvia, hclose, -⟩ := rewriteHeader_eq_some hr
      exact ⟨hclose, rfl, Or.inr ⟨r, source, hvia, rfl, source_eq_some hsource, rfl⟩⟩

theorem onResponse_eq_some {s s' : Relay} {m : Incoming StatusLine} (h : s.onResponse m = some s') :
    s'.closeTunnel = (s.closeTunnel || !m.header.keepAlive) ∧ s'.buffer = s.buffer ∧
      ((hasFoxyVia m.header.fields = true ∧ s'.point = .complete none true) ∨
        ∃ r source, hasFoxyVia m.header.fields = false ∧
          rewriteHeader s.closeTunnel s.resFields m.header = some r ∧ source.rest = m.payload ∧
          s'.point = .writeResponse r.header source) := by
  obtain ⟨source, hsource, rfl⟩ := Option.map_eq_some_iff.1 h
  cases hr : rewriteHeader s.closeTunnel s.resFields m.header with
  | none => exact ⟨rfl, rfl, Or.inl ⟨by simpa [rewriteHeader] using hr, rfl⟩⟩
  | some r =>
      obtain ⟨hvia, hclose, -⟩ := rewriteHeader_eq_some hr
      exact ⟨hclose, rfl, Or.inr ⟨r, source, hvia, rfl, source_eq_some hsource, rfl⟩⟩

/-- Everything a step can do. -/
inductive Step (s : Relay) : RelayEvent → Relay → Prop
  | requestFailed {message : Bytes} (hp : s.point = .readRequest) :
      Step s (.readRequest (.error message)) (s.upcall (some (.failure message)))
  | request {m : Incoming RequestLine} {s' : Relay} (hp : s.point = .readRequest)
      (h : s.onRequest m = some s') : Step s (.readRequest (.ok m)) s'
  | requestUnwritten {header : Request} {source : Source} {message : Bytes}
      (hp : s.point = .writeRequest header source) :
      Step s (.writeRequest (some message)) (s.upcall (some (.failure message)))
  | requestWritten {header : Request} {source : Source}
      (hp : s.point = .writeRequest header source) :
      Step s (.writeRequest none)
        { s with point := .requestBody (BodyLoop.start s.buffer source header.chunked) }
  | requestBody {loop loop' : BodyLoop} {b : BodyEvent} (hp : s.point = .requestBody loop)
      (h : loop.step b = some loop') : Step s (.requestBody b) (s.afterRequestBody loop')
  | responseFailed {message : Bytes} (hp : s.point = .readResponse) :
      Step s (.readResponse (.error message)) (s.upcall (some (.failure message)))
  | response {m : Incoming StatusLine} {s' : Relay} (hp : s.point = .readResponse)
      (h : s.onResponse m = some s') : Step s (.readResponse (.ok m)) s'
  | responseUnwritten {header : Response} {source : Source} {message : Bytes}
      (hp : s.point = .writeResponse header source) :
      Step s (.writeResponse (some message)) (s.upcall (some (.failure message)))
  | responseWritten {header : Response} {source : Source}
      (hp : s.point = .writeResponse header source) :
      Step s (.writeResponse none)
        { s with point := .responseBody (BodyLoop.start s.buffer source header.chunked) }
  | responseBody {loop loop' : BodyLoop} {b : BodyEvent} (hp : s.point = .responseBody loop)
      (h : loop.step b = some loop') : Step s (.responseBody b) (s.afterResponseBody loop')

theorem step_inv {s s' : Relay} {e : RelayEvent} (h : s.step e = some s') : Step s e s' := by
  unfold step at h
  split at h
  case h_1 message hp => exact Option.some.inj h ▸ .requestFailed hp
  case h_2 m hp => exact .request hp h
  case h_3 header source message hp => exact Option.some.inj h ▸ .requestUnwritten hp
  case h_4 header source hp => exact Option.some.inj h ▸ .requestWritten hp
  case h_5 loop b hp =>
    obtain ⟨loop', hloop, rfl⟩ := Option.map_eq_some_iff.1 h
    exact .requestBody hp hloop
  case h_6 message hp => exact Option.some.inj h ▸ .responseFailed hp
  case h_7 m hp => exact .response hp h
  case h_8 header source message hp => exact Option.some.inj h ▸ .responseUnwritten hp
  case h_9 header source hp => exact Option.some.inj h ▸ .responseWritten hp
  case h_10 loop b hp =>
    obtain ⟨loop', hloop, rfl⟩ := Option.map_eq_some_iff.1 h
    exact .responseBody hp hloop
  case h_11 => cases h

end Relay

end Foxy.Detail
