import Foxy.Detail.Relay
import Foxy.Uri.Parts

/-!
# Foxy.Detail.Tunnel

`tunnel_op` (`foxy/detail/tunnel.hpp`): requests are read from the proxy's client
until one of them leads to a connection, by CONNECT, or to a relayed request, by
an absolute target; everything else is answered with `400`.

As with the relay, `Tunnel` is the operation at a suspension point and
`Tunnel.step` what it does from there. The relay it runs itself is one event
here, its completion.
-/

namespace Foxy.Detail

open Http Lib Uri

/-- A reply of the proxy's own: `result` and `body`. -/
structure Reply where
  status : Nat
  body : Bytes
  deriving Repr, DecidableEq

/-- Where the tunnel is suspended. -/
inductive TunnelPoint
  | readHeader
  /-- Writing that CONNECT needs a persistent connection. -/
  | replyNonPersistent
  /-- In `client.async_connect(host, port)`. -/
  | connect (host port : Bytes)
  /-- Writing that the connection failed. -/
  | replyUnconnected
  /-- Writing that the request is malformed. -/
  | replyMalformed
  | relay
  /-- Writing `200`. -/
  | replyOk
  | detect
  /-- The handler was called with these. -/
  | complete (ec : Option Error) (closeTunnel : Bool)
  deriving Repr, DecidableEq

/-- `tunnel_op::state` at a suspension point. -/
structure Tunnel where
  point : TunnelPoint
  /-- The request in the parser, with what of the message is still to be read. -/
  request : Incoming RequestLine
  response : Reply
  uriParts : UriParts
  /-- A tribool, false by default; `none` is indeterminate. -/
  isSsl : Option Bool
  isAuthority : Bool
  isConnect : Bool
  isAbsolute : Bool
  isHttp : Bool
  closeTunnel : Bool

/-- What the tunnel is resumed with. -/
inductive TunnelEvent
  | header (result : Except Bytes (Incoming RequestLine))
  | connect (failure : Option Bytes)
  | write (failure : Option Bytes)
  | relay (ec : Option Error) (closeTunnel : Bool)
  | detect (failure : Option Bytes) (isSsl : Option Bool)

/-- The request of a parser just emplaced. -/
def blankRequest : Incoming RequestLine := ⟨⟨⟨.other [], []⟩, 11, []⟩, []⟩

/-- The response just emplaced: `200`, and no body. -/
def blankReply : Reply := ⟨200, []⟩

/-- `bad_request` with a body. -/
def badRequest (body : Bytes) : Reply := ⟨400, body⟩

def nonPersistentText : Bytes := ascii "CONNECT semantics require a persistent connection\n\n"

def unconnectedText (host message : Bytes) : Bytes :=
  ascii "Unable to connect to the remote at: " ++ host ++ ascii "\nError code: " ++ message ++
    ascii "\n\n"

def malformedText : Bytes :=
  ascii "Malformed client request. Use either CONNECT <authority-uri> or <verb> <absolute-uri>"

/-- The origin-form target of an absolute one. -/
def originTarget (method : Verb) (parts : UriParts) : Bytes :=
  let path :=
    if parts.path.chars.isEmpty then (if method = .options then ascii "*" else ascii "/")
    else parts.path.chars
  if parts.query.chars.isEmpty then path else path ++ ascii "?" ++ parts.query.chars

/-- The Host field for it. -/
def hostname (parts : UriParts) : Bytes :=
  if parts.port.chars.isEmpty then parts.host.chars
  else parts.host.chars ++ ascii ":" ++ parts.port.chars

/-- The request as it is handed to the relay. -/
def originRequest (h : Request) (parts : UriParts) : Request :=
  let h := h.keepAliveFalse
  { h with
    start := { h.start with target := originTarget h.start.method parts }
    fields := h.fields.set .host (hostname parts) }

/-- The port to connect to, where the URI has none that of the client session's
own scheme. -/
def dialPort (clientSsl : Bool) (parts : UriParts) : Bytes :=
  if parts.port.chars.isEmpty then (if clientSsl then ascii "https" else ascii "http")
  else parts.port.chars

namespace Tunnel

/-- The top of the loop, up to the read of a header. -/
def loopHead (s : Tunnel) : Tunnel :=
  { s with point := .readHeader, request := blankRequest, response := blankReply }

/-- The operation as its constructor leaves it. -/
def start : Tunnel :=
  loopHead
    ⟨.readHeader, blankRequest, blankReply, .empty, some false, false, false, false, false, false⟩

/-- `upcall`. -/
def upcall (s : Tunnel) (ec : Option Error) : Tunnel := { s with point := .complete ec s.closeTunnel }

/-- Behind the loop. Every `break` leaves it with `ec` clear. -/
def afterLoop (s : Tunnel) : Tunnel :=
  if !s.closeTunnel then { s with point := .detect }
  else { s with point := .complete none s.closeTunnel }

/-- From a request's header to the first operation it leads to. -/
def onHeader (clientSsl : Bool) (s : Tunnel) (m : Incoming RequestLine) : Tunnel :=
  let parts := parseUri m.header.start.target
  let s := { s with
    request := m
    uriParts := parts
    isAuthority := parts.isAuthority
    isConnect := m.header.start.method == Verb.connect
    isAbsolute := parts.isAbsolute
    isHttp := parts.isHttp }
  if s.isConnect && s.isAuthority && !m.header.parsedKeepAlive then
    { s with
      closeTunnel := true
      response := badRequest nonPersistentText
      point := .replyNonPersistent }
  else if (s.isConnect && s.isAuthority) || (s.isAbsolute && s.isHttp) then
    { s with point := .connect parts.host.chars (dialPort clientSsl parts) }
  else
    { s with response := badRequest malformedText, point := .replyMalformed }

/-- From an attempt to connect on. -/
def onConnect (s : Tunnel) (failure : Option Bytes) : Tunnel :=
  match failure with
  | some message =>
    { s with
      response := badRequest (unconnectedText s.uriParts.host.chars message)
      point := .replyUnconnected }
  | none =>
    if s.isAbsolute && s.isHttp then
      { s with
        request := { s.request with header := originRequest s.request.header s.uriParts }
        point := .relay }
    else { s with response := { s.response with status := 200 }, point := .replyOk }

/-- From the write of a `400` that may be followed by another request. -/
def onReply (s : Tunnel) (keepAlive : Bool) (failure : Option Bytes) : Tunnel :=
  match failure with
  | some message => s.upcall (some (.failure message))
  | none => if keepAlive then s.loopHead else s.afterLoop

def step (clientSsl : Bool) (s : Tunnel) (e : TunnelEvent) : Option Tunnel :=
  match s.point, e with
  | .readHeader, .header (.error message) => some (s.upcall (some (.failure message)))
  | .readHeader, .header (.ok m) => some (s.onHeader clientSsl m)
  | .replyNonPersistent, .write failure => some (s.onReply false failure)
  | .connect _ _, .connect failure => some (s.onConnect failure)
  | .replyUnconnected, .write failure => some (s.onReply s.request.header.keepAlive failure)
  | .replyMalformed, .write failure => some (s.onReply s.request.header.parsedKeepAlive failure)
  | .relay, .relay (some error) _ => some (s.upcall (some error))
  | .relay, .relay none _ => some { s with closeTunnel := true }.afterLoop
  | .replyOk, .write (some message) =>
    some ({ s with closeTunnel := true }.upcall (some (.failure message)))
  | .replyOk, .write none => some { s with closeTunnel := false }.afterLoop
  | .detect, .detect _ isSsl =>
    -- the error of the detection goes nowhere
    some { s with isSsl := isSsl, point := .complete none s.closeTunnel }
  | _, _ => none

/-! ### One step -/

/-- The request is a CONNECT to an authority on a persistent connection. -/
def PersistentConnect (m : Request) : Prop :=
  m.start.method = .connect ∧ (parseUri m.start.target).isAuthority = true ∧
    m.parsedKeepAlive = true

/-- The request has an absolute target of a scheme the proxy speaks. -/
def AbsoluteHttp (m : Request) : Prop :=
  (parseUri m.start.target).isAbsolute = true ∧ (parseUri m.start.target).isHttp = true

/-- Everything a step can do. -/
inductive Step (clientSsl : Bool) (s : Tunnel) : TunnelEvent → Tunnel → Prop
  | headerFailed {message : Bytes} (hp : s.point = .readHeader) :
      Step clientSsl s (.header (.error message)) (s.upcall (some (.failure message)))
  | header {m : Incoming RequestLine} (hp : s.point = .readHeader) :
      Step clientSsl s (.header (.ok m)) (s.onHeader clientSsl m)
  | nonPersistent {failure : Option Bytes} (hp : s.point = .replyNonPersistent) :
      Step clientSsl s (.write failure) (s.onReply false failure)
  | connect {host port : Bytes} {failure : Option Bytes} (hp : s.point = .connect host port) :
      Step clientSsl s (.connect failure) (s.onConnect failure)
  | unconnected {failure : Option Bytes} (hp : s.point = .replyUnconnected) :
      Step clientSsl s (.write failure) (s.onReply s.request.header.keepAlive failure)
  | malformed {failure : Option Bytes} (hp : s.point = .replyMalformed) :
      Step clientSsl s (.write failure) (s.onReply s.request.header.parsedKeepAlive failure)
  | relayFailed {error : Error} {close : Bool} (hp : s.point = .relay) :
      Step clientSsl s (.relay (some error) close) (s.upcall (some error))
  | relayed {close : Bool} (hp : s.point = .relay) :
      Step clientSsl s (.relay none close) { s with closeTunnel := true }.afterLoop
  | okFailed {message : Bytes} (hp : s.point = .replyOk) :
      Step clientSsl s (.write (some message))
        ({ s with closeTunnel := true }.upcall (some (.failure message)))
  | okWritten (hp : s.point = .replyOk) :
      Step clientSsl s (.write none) { s with closeTunnel := false }.afterLoop
  | detected {failure : Option Bytes} {isSsl : Option Bool} (hp : s.point = .detect) :
      Step clientSsl s (.detect failure isSsl)
        { s with isSsl := isSsl, point := .complete none s.closeTunnel }

theorem step_inv {clientSsl : Bool} {s s' : Tunnel} {e : TunnelEvent}
    (h : s.step clientSsl e = some s') : Step clientSsl s e s' := by
  unfold step at h
  split at h
  case h_1 message hp => exact Option.some.inj h ▸ .headerFailed hp
  case h_2 m hp => exact Option.some.inj h ▸ .header hp
  case h_3 failure hp => exact Option.some.inj h ▸ .nonPersistent hp
  case h_4 host port failure hp => exact Option.some.inj h ▸ .connect hp
  case h_5 failure hp => exact Option.some.inj h ▸ .unconnected hp
  case h_6 failure hp => exact Option.some.inj h ▸ .malformed hp
  case h_7 error close hp => exact Option.some.inj h ▸ .relayFailed hp
  case h_8 close hp => exact Option.some.inj h ▸ .relayed hp
  case h_9 message hp => exact Option.some.inj h ▸ .okFailed hp
  case h_10 hp => exact Option.some.inj h ▸ .okWritten hp
  case h_11 failure isSsl hp => exact Option.some.inj h ▸ .detected hp
  case h_12 => cases h

/-- The three ways on from a header. -/
theorem onHeader_cases (clientSsl : Bool) (s : Tunnel) (m : Incoming RequestLine) :
    (s.onHeader clientSsl m).request = m ∧
      ((s.onHeader clientSsl m).point = .replyNonPersistent ∧
          (s.onHeader clientSsl m).closeTunnel = true ∨
        (s.onHeader clientSsl m).closeTunnel = s.closeTunnel ∧
          ((s.onHeader clientSsl m).point = .replyMalformed ∨
            ((s.onHeader clientSsl m).point = .connect (parseUri m.header.start.target).host.chars
                (dialPort clientSsl (parseUri m.header.start.target)) ∧
              (s.onHeader clientSsl m).isAbsolute =
                (parseUri m.header.start.target).isAbsolute ∧
              (s.onHeader clientSsl m).isHttp = (parseUri m.header.start.target).isHttp ∧
              (AbsoluteHttp m.header ∨ PersistentConnect m.header)))) := by
  unfold onHeader
  dsimp only
  split
  · exact ⟨rfl, Or.inl ⟨rfl, rfl⟩⟩
  · rename_i hkeep
    split
    · rename_i hgo
      refine ⟨rfl, Or.inr ⟨rfl, Or.inr ⟨rfl, rfl, rfl, ?_⟩⟩⟩
      simp only [Bool.or_eq_true, Bool.and_eq_true, beq_iff_eq] at hgo
      rcases hgo with ⟨hconnect, hauth⟩ | habs
      · refine Or.inr ⟨hconnect, hauth, ?_⟩
        simpa [hconnect, hauth] using hkeep
      · exact Or.inl habs
    · exact ⟨rfl, Or.inr ⟨rfl, Or.inl rfl⟩⟩

end Tunnel

end Foxy.Detail
