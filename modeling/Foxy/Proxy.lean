import Foxy.Detail.RelayRuns
import Foxy.Detail.TunnelRuns

/-!
# Foxy.Proxy

The loop over one accepted connection (`async_connect_op` in `src/proxy.cpp`):
`async_tunnel` and `async_relay` in turn until one of them fails or asks to
close, then the shutdown of both sessions.

The client session, with which the proxy reaches the remotes, outlives every
connection made with it. Its buffer holds what was received and not yet
consumed; of every byte the model keeps which connection it came from.
-/

namespace Foxy

open Http Lib Detail

/-- The client session: the connection it is on, counted from its first, and the
unread bytes in its buffer, each as the connection it was received on. -/
structure ClientSession where
  connection : Nat
  buffer : List Nat
  deriving Repr, DecidableEq

namespace ClientSession

/-- `async_connect` succeeded. -/
def connected (c : ClientSession) : ClientSession := { c with connection := c.connection + 1 }

/-- The buffer once a read has received so many bytes. -/
def filled (c : ClientSession) (received : Nat) : List Nat :=
  c.buffer ++ List.replicate received c.connection

/-- A read: it takes from the front of the buffer, after receiving more. -/
def read (c : ClientSession) (received consumed : Nat) : ClientSession :=
  { c with buffer := (c.filled received).drop consumed }

/-- The bytes a read takes. -/
def taken (c : ClientSession) (received consumed : Nat) : List Nat :=
  (c.filled received).take consumed

end ClientSession

/-- What the connection is at. -/
inductive ProxyPhase
  | tunnel (t : Tunnel)
  /-- In the relay that the tunnel runs itself. -/
  | tunnelRelay (t : Tunnel) (r : Relay)
  | relay (r : Relay)
  | shutdownSession
  | shutdownClient
  | ended

structure Proxy where
  phase : ProxyPhase
  client : ClientSession

/-- What the loop, or the operation it is in, is resumed with. A step of a relay
that reads from the client session comes with the bytes it received and those
it consumed. -/
inductive ProxyEvent
  | tunnel (e : TunnelEvent)
  | relay (e : RelayEvent) (received consumed : Nat)
  | shutdown (ec : Option Error)

/-- The relay's steps that read from the client session. -/
def readsResponse : RelayEvent → Bool
  | .readResponse _ => true
  | .responseBody (.read _ _) => true
  | _ => false

namespace Proxy

/-- The client session after a step of the tunnel. -/
def afterTunnelEvent (client : ClientSession) : TunnelEvent → ClientSession
  | .connect none => client.connected
  | _ => client

/-- The client session after a step of a relay. -/
def afterRelayEvent (client : ClientSession) (e : RelayEvent) (received consumed : Nat) :
    ClientSession :=
  if readsResponse e then client.read received consumed else client

/-- The loop from the tunnel on. `buffer` is what a fresh relay finds in its
array. -/
def afterTunnel (buffer : Buffer) (client : ClientSession) (t : Tunnel) : Option Proxy :=
  match t.point with
  | .complete ec closeTunnel =>
    if ec.isSome || closeTunnel then some ⟨.shutdownSession, client⟩
    else (Relay.start buffer none).map fun r => ⟨.relay r, client⟩
  | _ => some ⟨.tunnel t, client⟩

/-- The tunnel while its own relay runs: when that is through, the tunnel goes
on. -/
def afterTunnelRelay (clientSsl : Bool) (buffer : Buffer) (client : ClientSession) (t : Tunnel)
    (r : Relay) : Option Proxy :=
  match r.point with
  | .complete ec closeTunnel =>
    (t.step clientSsl (.relay ec closeTunnel)).bind (afterTunnel buffer client)
  | _ => some ⟨.tunnelRelay t r, client⟩

/-- The loop from the relay on. -/
def afterRelay (client : ClientSession) (r : Relay) : Proxy :=
  match r.point with
  | .complete ec closeTunnel =>
    if ec.isSome || closeTunnel then ⟨.shutdownSession, client⟩ else ⟨.tunnel Tunnel.start, client⟩
  | _ => ⟨.relay r, client⟩

/-- A connection just accepted. -/
def start : Proxy := ⟨.tunnel Tunnel.start, ⟨0, []⟩⟩

def step (clientSsl : Bool) (buffer : Buffer) (s : Proxy) (e : ProxyEvent) : Option Proxy :=
  match s.phase, e with
  | .tunnel t, .tunnel e =>
    (t.step clientSsl e).bind fun t =>
      let client := afterTunnelEvent s.client e
      match t.point with
      | .relay =>
        (Relay.start buffer (some t.request)).bind (afterTunnelRelay clientSsl buffer client t)
      | _ => afterTunnel buffer client t
  | .tunnelRelay t r, .relay e received consumed =>
    (r.step e).bind
      (afterTunnelRelay clientSsl buffer (afterRelayEvent s.client e received consumed) t)
  | .relay r, .relay e received consumed =>
    (r.step e).map (afterRelay (afterRelayEvent s.client e received consumed))
  | .shutdownSession, .shutdown _ => some { s with phase := .shutdownClient }
  | .shutdownClient, .shutdown _ => some { s with phase := .ended }
  | _, _ => none

/-! ### The client session over a step -/

/-- The client session after an event. -/
def clientAfter (client : ClientSession) : ProxyEvent → ClientSession
  | .tunnel e => afterTunnelEvent client e
  | .relay e received consumed => afterRelayEvent client e received consumed
  | .shutdown _ => client

variable {clientSsl : Bool} {buffer : Buffer} {s s' : Proxy} {e : ProxyEvent}
  {tr : List (Proxy × ProxyEvent)}

theorem afterTunnel_client {client : ClientSession} {t : Tunnel}
    (h : afterTunnel buffer client t = some s') : s'.client = client := by
  unfold afterTunnel at h
  split at h
  · split at h
    · rw [← Option.some.inj h]
    · obtain ⟨r, -, rfl⟩ := Option.map_eq_some_iff.1 h
      rfl
  · rw [← Option.some.inj h]

theorem afterTunnelRelay_client {client : ClientSession} {t : Tunnel} {r : Relay}
    (h : afterTunnelRelay clientSsl buffer client t r = some s') : s'.client = client := by
  unfold afterTunnelRelay at h
  split at h
  · obtain ⟨t', -, h⟩ := Option.bind_eq_some_iff.1 h
    exact afterTunnel_client h
  · rw [← Option.some.inj h]

theorem afterRelay_client (client : ClientSession) (r : Relay) :
    (afterRelay client r).client = client := by
  unfold afterRelay
  split
  · split <;> rfl
  · rfl

/-- Only connecting and reading change the client session. -/
theorem step_client (h : s.step clientSsl buffer e = some s') :
    s'.client = clientAfter s.client e := by
  unfold step at h
  split at h
  · obtain ⟨t', -, h⟩ := Option.bind_eq_some_iff.1 h
    dsimp only at h
    split at h
    · obtain ⟨r, -, h⟩ := Option.bind_eq_some_iff.1 h
      exact afterTunnelRelay_client h
    · exact afterTunnel_client h
  · obtain ⟨r, -, h⟩ := Option.bind_eq_some_iff.1 h
    exact afterTunnelRelay_client h
  · obtain ⟨r, -, rfl⟩ := Option.map_eq_some_iff.1 h
    exact afterRelay_client _ _
  · rw [← Option.some.inj h]
    rfl
  · rw [← Option.some.inj h]
    rfl
  · cases h

/-! ### Isolation of the remotes -/

/-- All unread bytes came from the connection the session is on. -/
def Isolated (client : ClientSession) : Prop := ∀ b ∈ client.buffer, b = client.connection

theorem isolated_filled {client : ClientSession} (h : Isolated client) (received : Nat) :
    ∀ b ∈ client.filled received, b = client.connection := by
  intro b hb
  rcases List.mem_append.1 hb with hb | hb
  · exact h b hb
  · exact List.eq_of_mem_replicate hb

/-- Connecting with nothing unread, and every read, keep it so. -/
theorem isolated_clientAfter {client : ClientSession} (h : Isolated client)
    (hconnect : e = .tunnel (.connect none) → client.buffer = []) :
    Isolated (clientAfter client e) := by
  cases e with
  | tunnel e =>
      cases e with
      | connect failure =>
          cases failure with
          | some message => exact h
          | none =>
              intro b hb
              have hnil : (clientAfter client (.tunnel (.connect none))).buffer = [] := hconnect rfl
              rw [hnil] at hb
              cases hb
      | header result => exact h
      | write failure => exact h
      | relay ec closeTunnel => exact h
      | detect failure isSsl => exact h
  | relay e received consumed =>
      simp only [clientAfter, afterRelayEvent]
      split
      · intro b hb
        exact isolated_filled h received b (List.mem_of_mem_drop hb)
      · exact h
  | shutdown ec => exact h

/-- A run in which connections are made with nothing unread keeps it so. -/
theorem isolated_after {s₀ : Proxy} (h : Run (step clientSsl buffer) s₀ tr s)
    (hI : Isolated s₀.client)
    (hconnect : ∀ x ∈ tr, x.2 = .tunnel (.connect none) → x.1.client.buffer = []) :
    Isolated s.client := by
  refine h.invariant_of (I := fun _ s => Isolated s.client) (C := fun x =>
    x.2 = .tunnel (.connect none) → x.1.client.buffer = []) hconnect hI ?_
  intro tr s e s' hI hC hs
  rw [step_client hs]
  exact isolated_clientAfter hI hC

/-- In every run in which each connection is made with nothing unread in the
client session's buffer, all that is read of a response came from the
connection the session is on. -/
theorem run_isolated (h : Run (step clientSsl buffer) start tr s)
    (hconnect : ∀ x ∈ tr, x.2 = .tunnel (.connect none) → x.1.client.buffer = []) :
    ∀ st e received consumed, (st, ProxyEvent.relay e received consumed) ∈ tr →
      readsResponse e = true →
      ∀ b ∈ st.client.taken received consumed, b = st.client.connection := by
  intro st e received consumed hmem _ b hb
  obtain ⟨before, after, s', htr, hrun, -⟩ := h.split hmem
  have hiso : Isolated st.client := by
    refine isolated_after hrun (by simp [Isolated, start]) fun x hx => ?_
    exact hconnect x (by rw [htr]; exact List.mem_append_left _ hx)
  exact isolated_filled hiso received b (List.mem_of_mem_take hb)

/-- A CONNECT, granted. -/
def connectTo (authority : String) : List ProxyEvent :=
  [.tunnel (.header (.ok ⟨⟨⟨.connect, ascii authority⟩, 11, []⟩, []⟩)), .tunnel (.connect none),
    .tunnel (.write none), .tunnel (.detect none (some false))]

/-- A request through the tunnel, and a `204` for it: the read of its header
receives and consumes so many bytes. -/
def exchange (received consumed : Nat) : List ProxyEvent :=
  [.relay (.readRequest (.ok Relay.getRoot)) 0 0, .relay (.writeRequest none) 0 0,
    .relay (.requestBody (.write none)) 0 0,
    .relay (.readResponse (.ok (Relay.answer 204 []))) received consumed,
    .relay (.writeResponse none) 0 0, .relay (.responseBody (.write none)) 0 0]

/-- The read of a response took a byte of another connection. -/
def foreignRead : Proxy × ProxyEvent → Bool
  | (s, .relay e received consumed) =>
    readsResponse e && (s.client.taken received consumed).any (· != s.client.connection)
  | _ => false

/-- The connection is made with bytes unread. -/
def dirtyConnect : Proxy × ProxyEvent → Bool
  | (s, .tunnel (.connect none)) => !s.client.buffer.isEmpty
  | _ => false

/-- Two CONNECTs with an exchange each, nothing left over in between. -/
theorem run_isolated_twice :
    ∃ tr s, Run (step false BodyLoop.zeros) start tr s ∧ s.client.connection = 2 ∧
      ∀ st e received consumed, (st, ProxyEvent.relay e received consumed) ∈ tr →
        readsResponse e = true →
        ∀ b ∈ st.client.taken received consumed, b = st.client.connection := by
  have hex : (exec (step false BodyLoop.zeros) start
      (connectTo "a:80" ++ exchange 4 4 ++ connectTo "b:80" ++ exchange 4 4)).map
      (fun r => (r.2.client.connection, r.1.any dirtyConnect)) = some (2, false) := by decide +kernel
  obtain ⟨⟨tr, s⟩, hex, hres⟩ := Option.map_eq_some_iff.1 hex
  obtain ⟨hconn, hclean⟩ := Prod.mk.inj hres
  have hrun := Run.of_exec hex
  refine ⟨tr, s, hrun, hconn, run_isolated hrun ?_⟩
  intro x hx heq
  have hx := List.any_eq_false.1 hclean x hx
  obtain ⟨st, e⟩ := x
  obtain rfl : e = .tunnel (.connect none) := heq
  simpa [dirtyConnect] using hx

/-- The first remote sends two bytes too many: the response to the request after
the second CONNECT is read from them. -/
theorem run_isolated_leftover :
    ∃ tr s, Run (step false BodyLoop.zeros) start tr s ∧
      ∃ st e received consumed, (st, ProxyEvent.relay e received consumed) ∈ tr ∧
        readsResponse e = true ∧
        ∃ b ∈ st.client.taken received consumed, b ≠ st.client.connection := by
  have hex : (exec (step false BodyLoop.zeros) start
      (connectTo "a:80" ++ exchange 6 4 ++ connectTo "b:80" ++ exchange 2 4)).map
      (fun r => r.1.any foreignRead) = some true := by decide +kernel
  obtain ⟨⟨tr, s⟩, hex, hforeign⟩ := Option.map_eq_some_iff.1 hex
  obtain ⟨⟨st, e⟩, hmem, hx⟩ := List.any_eq_true.1 hforeign
  refine ⟨tr, s, Run.of_exec hex, ?_⟩
  cases e with
  | tunnel e => cases hx
  | shutdown ec => cases hx
  | relay e received consumed =>
      simp only [foreignRead, Bool.and_eq_true, List.any_eq_true, bne_iff_ne] at hx
      exact ⟨st, e, received, consumed, hmem, hx.1, hx.2⟩

end Proxy

end Foxy
