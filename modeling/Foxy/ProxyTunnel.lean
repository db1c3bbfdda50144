import Foxy.Detail.RelayShape
import Foxy.ProxyRuns

/-!
# Foxy.ProxyTunnel

What follows a CONNECT that was answered with `200`.

The loop of the connection relays one request and goes back to the tunnel's own
operation, which reads the next one as a request to the proxy. What the relay
reads of the response comes out of the client session's buffer, where bytes of
an earlier connection may stand in front; and the relay forwards one head,
whatever its status.
-/

namespace Foxy.Proxy

open Http Lib Detail

variable {clientSsl : Bool} {buffer : Buffer} {s s' : Proxy} {e : ProxyEvent}
  {tr : List (Proxy × ProxyEvent)} {reads : Nat}

/-! ### The tunnel of a CONNECT -/

/-- The step of a relay that a step is. -/
def relayStep : Proxy × ProxyEvent → Option (Relay × RelayEvent)
  | (s, .relay e _ _) =>
    match s.phase with
    | .tunnelRelay _ r => some (r, e)
    | .relay r => some (r, e)
    | _ => none
  | _ => none

/-- The steps of the relays. -/
def relaySteps (tr : List (Proxy × ProxyEvent)) : List (Relay × RelayEvent) :=
  tr.filterMap relayStep

/-- The relay the loop runs, at its start. -/
def relayStart (buffer : Buffer) : Relay := ⟨.readRequest, buffer, [], [], false⟩

/-- Where a connection can be after a granted CONNECT, as long as the tunnel's
loop has not read another request: `reads` is the number of those relayed,
`steps` what the relay did. -/
def Following (buffer : Buffer) (reads : Nat) (steps : List (Relay × RelayEvent)) :
    ProxyPhase → Prop
  | .tunnel t => (t.point = .detect ∧ reads = 0 ∧ steps = []) ∨ (t.point = .readHeader ∧ reads = 1 ∧
      ∃ r, Run Relay.step (relayStart buffer) steps r ∧ r.point = .complete none false)
  | .tunnelRelay _ _ => False
  | .relay r => Run Relay.step (relayStart buffer) steps r ∧
      ((r.point = .readRequest ∧ reads = 0) ∨ (r.point ≠ .readRequest ∧ reads = 1))
  | _ => reads ≤ 1

/-- So far the tunnel has lasted. -/
structure Lasting (buffer : Buffer) (connection : Nat) (after : List (Proxy × ProxyEvent))
    (s : Proxy) : Prop where
  connected : ∀ x ∈ after, x.1.client.connection = connection
  unconnected : ∀ x ∈ after, x.2 ≠ .tunnel (.connect none)
  relayed : ∀ x ∈ after, readsHeader x = true → ∃ r, x.1.phase = .relay r
  silent : ∀ x ∈ after, writesOwn x = false
  here : s.client.connection = connection
  following : Following buffer (after.countP readsHeader) (relaySteps after) s.phase

/-- The tunnel's loop has read a request that was not the first. -/
def Broken (after : List (Proxy × ProxyEvent)) : Prop :=
  2 ≤ after.countP readsHeader ∧ ∃ x ∈ after, readsHeader x = true ∧ ∃ t, x.1.phase = .tunnel t

variable {after : List (Proxy × ProxyEvent)} {connection : Nat}

theorem relaySteps_snoc :
    relaySteps (tr ++ [(s, e)]) = relaySteps tr ++ (relayStep (s, e)).toList := filterMap_snoc _ _ _

theorem Lasting.snoc (h : Lasting buffer connection after s)
    (hs : s.step clientSsl buffer e = some s') (hown : writesOwn (s, e) = false)
    (hread : readsHeader (s, e) = true → ∃ r, s.phase = .relay r)
    (hconnect : e ≠ .tunnel (.connect none))
    (hf : Following buffer (after.countP readsHeader + (readsHeader (s, e)).toNat)
      (relaySteps after ++ (relayStep (s, e)).toList) s'.phase) :
    Lasting buffer connection (after ++ [(s, e)]) s' := by
  refine ⟨forall_mem_snoc h.connected h.here, forall_mem_snoc h.unconnected hconnect,
    forall_mem_snoc h.relayed hread, forall_mem_snoc h.silent hown, ?_,
    by rw [countP_snoc, relaySteps_snoc]; exact hf⟩
  rw [step_client hs, ← h.here]
  cases e with
  | tunnel e =>
      cases e with
      | connect failure =>
          cases failure with
          | some message => rfl
          | none => exact absurd rfl hconnect
      | header result => rfl
      | write failure => rfl
      | relay ec closeTunnel => rfl
      | detect failure isSsl => rfl
  | relay e received consumed =>
      simp only [clientAfter, afterRelayEvent]
      split <;> rfl
  | shutdown ec => rfl

theorem Broken.snoc (h : Broken after) : Broken (after ++ [(s, e)]) := by
  obtain ⟨hreads, x, hx, hread⟩ := h
  refine ⟨?_, x, List.mem_append_left _ hx, hread⟩
  rw [countP_snoc]
  omega

end Foxy.Proxy
