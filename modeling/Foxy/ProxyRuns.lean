import Foxy.Proxy

/-!
# Foxy.ProxyRuns

Whole runs of one proxy connection: requests are read and replies written by two
operations that hand the server session back and forth.

Where the connection is with its replies is read off the suspension point
(`stage`); how many headers were read, heads written and replies finished by
then follows from it (`Balanced`).
-/

namespace Foxy.Proxy

open Http Lib Detail

variable {clientSsl : Bool} {buffer : Buffer} {s s' : Proxy} {e : ProxyEvent}
  {tr : List (Proxy × ProxyEvent)}

/-! ### One step -/

/-- Everything a step can do. -/
inductive Step (clientSsl : Bool) (buffer : Buffer) (s : Proxy) : ProxyEvent → Proxy → Prop
  | tunnel {t t' : Tunnel} {e : TunnelEvent} {s' : Proxy} (hp : s.phase = .tunnel t)
      (ht : t.step clientSsl e = some t') (hne : t'.point ≠ .relay)
      (h : afterTunnel buffer (afterTunnelEvent s.client e) t' = some s') :
      Step clientSsl buffer s (.tunnel e) s'
  | enterRelay {t t' : Tunnel} {r : Relay} {e : TunnelEvent} {s' : Proxy} (hp : s.phase = .tunnel t)
      (ht : t.step clientSsl e = some t') (hpoint : t'.point = .relay)
      (hr : Relay.start buffer (some t'.request) = some r)
      (h : afterTunnelRelay clientSsl buffer (afterTunnelEvent s.client e) t' r = some s') :
      Step clientSsl buffer s (.tunnel e) s'
  | tunnelRelay {t : Tunnel} {r r' : Relay} {e : RelayEvent} {received consumed : Nat} {s' : Proxy}
      (hp : s.phase = .tunnelRelay t r) (hr : r.step e = some r')
      (h : afterTunnelRelay clientSsl buffer (afterRelayEvent s.client e received consumed) t r' =
        some s') :
      Step clientSsl buffer s (.relay e received consumed) s'
  | relay {r r' : Relay} {e : RelayEvent} {received consumed : Nat} (hp : s.phase = .relay r)
      (hr : r.step e = some r') :
      Step clientSsl buffer s (.relay e received consumed)
        (afterRelay (afterRelayEvent s.client e received consumed) r')
  | shutdownSession {ec : Option Error} (hp : s.phase = .shutdownSession) :
      Step clientSsl buffer s (.shutdown ec) { s with phase := .shutdownClient }
  | shutdownClient {ec : Option Error} (hp : s.phase = .shutdownClient) :
      Step clientSsl buffer s (.shutdown ec) { s with phase := .ended }

theorem step_inv (h : s.step clientSsl buffer e = some s') : Step clientSsl buffer s e s' := by
  unfold step at h
  split at h
  case h_1 t e hp =>
    obtain ⟨t', ht, h⟩ := Option.bind_eq_some_iff.1 h
    dsimp only at h
    split at h
    · next hpoint =>
        obtain ⟨r, hr, h⟩ := Option.bind_eq_some_iff.1 h
        exact .enterRelay hp ht hpoint hr h
    · next hne => exact .tunnel hp ht hne h
  case h_2 t r e received consumed hp =>
    obtain ⟨r', hr, h⟩ := Option.bind_eq_some_iff.1 h
    exact .tunnelRelay hp hr h
  case h_3 r e received consumed hp =>
    obtain ⟨r', hr, rfl⟩ := Option.map_eq_some_iff.1 h
    exact .relay hp hr
  case h_4 ec hp => exact Option.some.inj h ▸ .shutdownSession hp
  case h_5 ec hp => exact Option.some.inj h ▸ .shutdownClient hp
  case h_6 => cases h

/-- The three ways on from the tunnel. -/
theorem afterTunnel_eq_some {client : ClientSession} {t : Tunnel}
    (h : afterTunnel buffer client t = some s') :
    (∃ ec close, t.point = .complete ec close ∧ (ec.isSome || close) = true ∧
        s' = ⟨.shutdownSession, client⟩) ∨
      (t.point = .complete none false ∧
        s' = ⟨.relay ⟨.readRequest, buffer, [], [], false⟩, client⟩) ∨
      ((∀ ec close, t.point ≠ .complete ec close) ∧ s' = ⟨.tunnel t, client⟩) := by
  unfold afterTunnel at h
  split at h
  · next ec close hp =>
      by_cases hend : (ec.isSome || close) = true
      · rw [if_pos hend, Option.some.injEq] at h
        exact Or.inl ⟨ec, close, hp, hend, h.symm⟩
      · rw [if_neg hend] at h
        simp only [Bool.or_eq_true, not_or, Bool.not_eq_true, Option.isSome_eq_false_iff,
          Option.isNone_iff_eq_none] at hend
        obtain ⟨rfl, rfl⟩ := hend
        simp only [Relay.start, Option.map_some, Option.some.injEq] at h
        exact Or.inr (Or.inl ⟨hp, h.symm⟩)
  · next hne => exact Or.inr (Or.inr ⟨hne, (Option.some.inj h).symm⟩)

/-- The tunnel's own relay goes on, or the connection is at its end. -/
theorem afterTunnelRelay_eq_some {client : ClientSession} {t : Tunnel} {r : Relay}
    (h : afterTunnelRelay clientSsl buffer client t r = some s') :
    s' = ⟨.shutdownSession, client⟩ ∨
      ((∀ ec close, r.point ≠ .complete ec close) ∧ s' = ⟨.tunnelRelay t r, client⟩) := by
  unfold afterTunnelRelay at h
  split at h
  · obtain ⟨t', ht, h⟩ := Option.bind_eq_some_iff.1 h
    have hclose : ∃ ec close, t'.point = .complete ec close ∧ (ec.isSome || close) = true := by
      cases Tunnel.step_inv ht with
      | relayFailed hp => exact ⟨_, _, rfl, rfl⟩
      | relayed hp => exact ⟨none, true, rfl, rfl⟩
    obtain ⟨ec, close, hp, hend⟩ := hclose
    rcases afterTunnel_eq_some h with ⟨-, -, -, -, rfl⟩ | ⟨hp', -⟩ | ⟨hne, -⟩
    · exact Or.inl rfl
    · rw [hp', TunnelPoint.complete.injEq] at hp
      rw [← hp.1, ← hp.2] at hend
      cases hend
    · exact absurd hp (hne ec close)
  · next hne => exact Or.inr ⟨hne, (Option.some.inj h).symm⟩

/-- The three ways on from the relay. -/
theorem afterRelay_cases (client : ClientSession) (r : Relay) :
    (∃ ec close, r.point = .complete ec close ∧ (ec.isSome || close) = true ∧
        afterRelay client r = ⟨.shutdownSession, client⟩) ∨
      (r.point = .complete none false ∧ afterRelay client r = ⟨.tunnel Tunnel.start, client⟩) ∨
      ((∀ ec close, r.point ≠ .complete ec close) ∧ afterRelay client r = ⟨.relay r, client⟩) := by
  unfold afterRelay
  split
  · next ec close hp =>
      by_cases hend : (ec.isSome || close) = true
      · rw [if_pos hend]
        exact Or.inl ⟨ec, close, hp, hend, rfl⟩
      · rw [if_neg hend]
        simp only [Bool.or_eq_true, not_or, Bool.not_eq_true, Option.isSome_eq_false_iff,
          Option.isNone_iff_eq_none] at hend
        obtain ⟨rfl, rfl⟩ := hend
        exact Or.inr (Or.inl ⟨hp, rfl⟩)
  · next hne => exact Or.inr (Or.inr ⟨hne, rfl⟩)

/-! ### Requests and replies -/

/-- The step read a request header from the client. -/
def readsHeader : Proxy × ProxyEvent → Bool
  | (_, .tunnel (.header (.ok _))) => true
  | (_, .relay (.readRequest (.ok _)) _ _) => true
  | _ => false

/-- The step wrote a reply of the proxy's own to the client, or failed to. -/
def writesOwn : Proxy × ProxyEvent → Bool
  | (_, .tunnel (.write _)) => true
  | _ => false

/-- The step wrote the head of a remote's response to the client, or failed to. -/
def writesRelayed : Proxy × ProxyEvent → Bool
  | (_, .relay (.writeResponse _) _ _) => true
  | _ => false

/-- A step of a relay with which a response is through. -/
def relayFinishes (r : Relay) (e : RelayEvent) : Bool :=
  match r.point, e with
  | .responseBody loop, .responseBody b => (loop.step b).any fun loop => loop.point == .finished
  | _, _ => false

/-- The step completed the write of a reply, all of it and without error. -/
def finishesReply : Proxy × ProxyEvent → Bool
  | (_, .tunnel (.write none)) => true
  | (s, .relay e _ _) =>
    match s.phase with
    | .tunnelRelay _ r => relayFinishes r e
    | .relay r => relayFinishes r e
    | _ => false
  | _ => false

/-- The step wrote the head of a response, of whichever kind. -/
def writesHead (x : Proxy × ProxyEvent) : Bool := writesOwn x || writesRelayed x

/-- Where a connection is with its replies. -/
inductive Stage
  /-- Every request was answered. -/
  | idle
  /-- A request was read and nothing written yet. -/
  | pending
  /-- The head of its response was written. -/
  | answering
  /-- No further request will be read. -/
  | over
  deriving DecidableEq

/-- A completed operation has come to rest only where the loop goes on. -/
def completeStage (ec : Option Error) (closeTunnel : Bool) : Stage :=
  if ec.isSome || closeTunnel then .over else .idle

def tunnelStage (t : Tunnel) : Stage :=
  match t.point with
  | .readHeader => .idle
  | .detect => .idle
  | .complete ec closeTunnel => completeStage ec closeTunnel
  | _ => .pending

def relayStage (r : Relay) : Stage :=
  match r.point with
  | .readRequest => .idle
  | .responseBody _ => .answering
  | .complete ec closeTunnel => completeStage ec closeTunnel
  | _ => .pending

def stage (s : Proxy) : Stage :=
  match s.phase with
  | .tunnel t => tunnelStage t
  | .tunnelRelay _ r => relayStage r
  | .relay r => relayStage r
  | _ => .over

/-- The numbers of headers read, heads written and replies finished at a stage. -/
def Balanced : Stage → Nat → Nat → Nat → Prop
  | .idle, reads, heads, replies => heads = reads ∧ replies = reads
  | .pending, reads, heads, replies => heads + 1 = reads ∧ replies + 1 = reads
  | .answering, reads, heads, replies => heads = reads ∧ replies + 1 = reads
  | .over, reads, heads, _ => heads ≤ reads

variable {reads heads replies : Nat}

theorem Balanced.over {stage : Stage} (h : Balanced stage reads heads replies) :
    Balanced .over reads heads replies := by
  cases stage <;> simp only [Balanced] at h ⊢ <;> omega

theorem Balanced.complete {ec : Option Error} {closeTunnel : Bool}
    (h : Balanced .idle reads heads replies) :
    Balanced (completeStage ec closeTunnel) reads heads replies := by
  unfold completeStage
  split
  · exact h.over
  · exact h

/-- A reply of the tunnel's own: a head is written, and where the write was
completed the reply is finished. -/
theorem balanced_onReply (t : Tunnel) (keepAlive : Bool) (failure : Option Bytes)
    (h : Balanced .pending reads heads replies) :
    Balanced (tunnelStage (t.onReply keepAlive failure)) reads (heads + 1)
      (replies + (finishesReply (s, .tunnel (.write failure))).toNat) := by
  simp only [Balanced] at h
  have hidle : Balanced .idle reads (heads + 1) (replies + 1) := h
  cases failure with
  | some message => exact hidle.over
  | none =>
      cases keepAlive with
      | true => exact hidle
      | false =>
          simp only [Tunnel.onReply, Bool.false_eq_true, if_false, Tunnel.afterLoop]
          split
          · exact hidle
          · exact hidle.complete

/-- One step of a tunnel. -/
theorem balanced_tunnel {t t' : Tunnel} {e : TunnelEvent}
    (h : Balanced (tunnelStage t) reads heads replies) (ht : t.step clientSsl e = some t') :
    Balanced (tunnelStage t') (reads + (readsHeader (s, .tunnel e)).toNat)
      (heads + (writesHead (s, .tunnel e)).toNat)
      (replies + (finishesReply (s, .tunnel e)).toNat) := by
  cases Tunnel.step_inv ht with
  | headerFailed hp =>
      simp only [tunnelStage, hp] at h
      exact h.over
  | @header m hp =>
      simp only [tunnelStage, hp, Balanced] at h
      have hpending : Balanced .pending (reads + 1) heads replies := by
        simp only [Balanced]
        omega
      obtain ⟨-, ⟨hp', -⟩ | ⟨-, hp' | ⟨hp', -⟩⟩⟩ := Tunnel.onHeader_cases clientSsl t m
      · simp only [tunnelStage, hp']
        exact hpending
      · simp only [tunnelStage, hp']
        exact hpending
      · simp only [tunnelStage, hp']
        exact hpending
  | @nonPersistent failure hp =>
      simp only [tunnelStage, hp] at h
      exact balanced_onReply t false failure h
  | @connect host port failure hp =>
      simp only [tunnelStage, hp] at h
      cases failure with
      | some message => exact h
      | none =>
          simp only [Tunnel.onConnect]
          split
          · exact h
          · exact h
  | @unconnected failure hp =>
      simp only [tunnelStage, hp] at h
      exact balanced_onReply t _ failure h
  | @malformed failure hp =>
      simp only [tunnelStage, hp] at h
      exact balanced_onReply t _ failure h
  | relayFailed hp => exact h.over
  | relayed hp => exact h.over
  | okFailed hp =>
      simp only [tunnelStage, hp, Balanced] at h
      show heads + 1 ≤ reads
      omega
  | okWritten hp =>
      simp only [tunnelStage, hp, Balanced] at h
      exact h
  | detected hp =>
      simp only [tunnelStage, hp] at h
      exact h.complete

/-- A relay that got a request, read or given. -/
theorem balanced_onRequest {r r' : Relay} {m : Incoming RequestLine}
    (h : Balanced .pending reads heads replies) (hr : r.onRequest m = some r') :
    Balanced (relayStage r') reads heads replies := by
  obtain ⟨-, -, ⟨-, hp⟩ | ⟨_, _, -, -, -, hp⟩⟩ := Relay.onRequest_eq_some hr
  · simp only [relayStage, hp]
    exact h.over
  · simp only [relayStage, hp]
    exact h

/-- One step of a relay. -/
theorem balanced_relay {r r' : Relay} {e : RelayEvent} {received consumed : Nat}
    (h : Balanced (relayStage r) reads heads replies) (hr : r.step e = some r') :
    Balanced (relayStage r') (reads + (readsHeader (s, .relay e received consumed)).toNat)
      (heads + (writesHead (s, .relay e received consumed)).toNat)
      (replies + (relayFinishes r e).toNat) := by
  cases Relay.step_inv hr with
  | requestFailed hp =>
      simp only [relayStage, hp] at h
      simp only [relayFinishes, hp]
      exact h.over
  | request hp hreq =>
      simp only [relayStage, hp, Balanced] at h
      simp only [relayFinishes, hp]
      refine balanced_onRequest ?_ hreq
      show heads + 1 = reads + 1 ∧ replies + 1 = reads + 1
      omega
  | requestUnwritten hp =>
      simp only [relayFinishes, hp]
      exact h.over
  | requestWritten hp =>
      simp only [relayStage, hp] at h
      simp only [relayFinishes, hp]
      exact h
  | @requestBody loop loop' b hp hloop =>
      simp only [relayStage, hp] at h
      simp only [relayFinishes, hp]
      cases hp' : loop'.point with
      | reading =>
          simp only [Relay.afterRequestBody, hp', relayStage]
          exact h
      | writing =>
          simp only [Relay.afterRequestBody, hp', relayStage]
          exact h
      | finished =>
          simp only [Relay.afterRequestBody, hp', relayStage]
          exact h
      | upcall ec =>
          simp only [Relay.afterRequestBody, hp', Relay.upcall, relayStage, completeStage,
            Bool.or_true, if_true]
          exact h.over
  | responseFailed hp =>
      simp only [relayFinishes, hp]
      exact h.over
  | response hp hres =>
      simp only [relayStage, hp] at h
      simp only [relayFinishes, hp]
      obtain ⟨-, -, ⟨-, hp'⟩ | ⟨_, _, -, -, -, hp'⟩⟩ := Relay.onResponse_eq_some hres
      · simp only [relayStage, hp']
        exact h.over
      · simp only [relayStage, hp']
        exact h
  | responseUnwritten hp =>
      simp only [relayStage, hp, Balanced] at h
      simp only [relayFinishes, hp]
      show heads + 1 ≤ reads
      omega
  | responseWritten hp =>
      simp only [relayStage, hp, Balanced] at h
      simp only [relayFinishes, hp]
      exact h
  | @responseBody loop loop' b hp hloop =>
      simp only [relayStage, hp, Balanced] at h
      simp only [relayFinishes, hp, hloop, Option.any_some]
      cases hp' : loop'.point with
      | reading =>
          simp only [Relay.afterResponseBody, hp', relayStage]
          exact h
      | writing =>
          simp only [Relay.afterResponseBody, hp', relayStage]
          exact h
      | finished =>
          simp only [Relay.afterResponseBody, hp', relayStage]
          exact Balanced.complete (show heads = reads ∧ replies + 1 = reads from h)
      | upcall ec =>
          simp only [Relay.afterResponseBody, hp', Relay.upcall, relayStage, completeStage,
            Bool.or_true, if_true]
          show heads ≤ reads
          omega

theorem stage_afterTunnel {client : ClientSession} {t : Tunnel}
    (h : afterTunnel buffer client t = some s') : stage s' = tunnelStage t := by
  rcases afterTunnel_eq_some h with ⟨ec, close, hp, hend, rfl⟩ | ⟨hp, rfl⟩ | ⟨-, rfl⟩
  · simp [stage, tunnelStage, hp, completeStage, hend]
  · simp [stage, tunnelStage, relayStage, hp, completeStage]
  · rfl

theorem stage_afterRelay (client : ClientSession) (r : Relay) :
    stage (afterRelay client r) = relayStage r := by
  rcases afterRelay_cases client r with ⟨ec, close, hp, hend, heq⟩ | ⟨hp, heq⟩ | ⟨-, heq⟩
  · simp [heq, stage, relayStage, hp, completeStage, hend]
  · rw [heq]
    simp [stage, relayStage, tunnelStage, hp, completeStage, Tunnel.start, Tunnel.loopHead]
  · rw [heq]
    rfl

theorem balanced_afterTunnelRelay {client : ClientSession} {t : Tunnel} {r : Relay}
    (h : afterTunnelRelay clientSsl buffer client t r = some s')
    (hr : Balanced (relayStage r) reads heads replies) :
    Balanced (stage s') reads heads replies := by
  rcases afterTunnelRelay_eq_some h with rfl | ⟨-, rfl⟩
  · exact hr.over
  · exact hr

/-- One step of the connection. -/
theorem balanced_step (h : Balanced (stage s) reads heads replies)
    (hs : s.step clientSsl buffer e = some s') :
    Balanced (stage s') (reads + (readsHeader (s, e)).toNat) (heads + (writesHead (s, e)).toNat)
      (replies + (finishesReply (s, e)).toNat) := by
  cases step_inv hs with
  | tunnel hp ht _ hafter =>
      simp only [stage, hp] at h
      rw [stage_afterTunnel hafter]
      exact balanced_tunnel h ht
  | @enterRelay t t' r e _ hp ht hpoint hr hafter =>
      simp only [stage, hp] at h
      refine balanced_afterTunnelRelay hafter (balanced_onRequest ?_ hr)
      have ht' := balanced_tunnel (s := s) h ht
      simp only [tunnelStage, hpoint] at ht'
      exact ht'
  | tunnelRelay hp hr hafter =>
      simp only [stage, hp] at h
      simp only [finishesReply, hp]
      exact balanced_afterTunnelRelay hafter (balanced_relay h hr)
  | relay hp hr =>
      simp only [stage, hp] at h
      simp only [finishesReply, hp]
      rw [stage_afterRelay]
      exact balanced_relay h hr
  | shutdownSession hp => exact h.over
  | shutdownClient hp => exact h.over

theorem countP_snoc {α : Type} (f : α → Bool) (l : List α) (x : α) :
    (l ++ [x]).countP f = l.countP f + (f x).toNat := by
  rw [List.countP_append]
  cases hx : f x <;> simp [hx]

/-- How many headers were read, heads written and replies finished goes by where
the connection is. -/
theorem run_balanced (h : Run (step clientSsl buffer) start tr s) :
    Balanced (stage s) (tr.countP readsHeader) (tr.countP writesHead) (tr.countP finishesReply) := by
  refine h.invariant (I := fun tr s => Balanced (stage s) (tr.countP readsHeader)
    (tr.countP writesHead) (tr.countP finishesReply)) ⟨rfl, rfl⟩ ?_
  intro tr s e s' _ hI hs
  rw [countP_snoc, countP_snoc, countP_snoc]
  exact balanced_step hI hs

/-! ### At most one answer -/

/-- A step that only tunnels and relays at one stage make is made at that
stage. -/
theorem stage_of_step {f : Proxy × ProxyEvent → Bool} {st : Stage}
    (htunnel : ∀ {t t' : Tunnel} {e}, t.step clientSsl e = some t' →
      f (s, .tunnel e) = true → tunnelStage t = st)
    (hrelay : ∀ {r r' : Relay} {e} {received consumed}, r.step e = some r' →
      f (s, .relay e received consumed) = true → relayStage r = st)
    (hshutdown : ∀ ec, f (s, .shutdown ec) = false)
    (hs : s.step clientSsl buffer e = some s') (hx : f (s, e) = true) : stage s = st := by
  cases step_inv hs with
  | tunnel hp ht _ _ =>
      simp only [stage, hp]
      exact htunnel ht hx
  | enterRelay hp ht _ _ _ =>
      simp only [stage, hp]
      exact htunnel ht hx
  | tunnelRelay hp hr _ =>
      simp only [stage, hp]
      exact hrelay hr hx
  | relay hp hr =>
      simp only [stage, hp]
      exact hrelay hr hx
  | shutdownSession _ => exact absurd hx (by simp [hshutdown])
  | shutdownClient _ => exact absurd hx (by simp [hshutdown])

/-- A request is read only where every one before it was answered. -/
theorem stage_of_readsHeader (hs : s.step clientSsl buffer e = some s')
    (hx : readsHeader (s, e) = true) : stage s = .idle := by
  refine stage_of_step ?_ ?_ (fun _ => rfl) hs hx
  · intro t t' e ht hx
    cases Tunnel.step_inv ht with
    | header hp => simp [tunnelStage, hp]
    | _ => cases hx
  · intro r r' e received consumed hr hx
    cases Relay.step_inv hr with
    | request hp _ => simp [relayStage, hp]
    | _ => cases hx

/-- A head is written only where a request waits for it. -/
theorem stage_of_writesHead (hs : s.step clientSsl buffer e = some s')
    (hx : writesHead (s, e) = true) : stage s = .pending := by
  refine stage_of_step ?_ ?_ (fun _ => rfl) hs hx
  · intro t t' e ht hx
    cases Tunnel.step_inv ht with
    | nonPersistent hp => simp [tunnelStage, hp]
    | unconnected hp => simp [tunnelStage, hp]
    | malformed hp => simp [tunnelStage, hp]
    | okFailed hp => simp [tunnelStage, hp]
    | okWritten hp => simp [tunnelStage, hp]
    | _ => cases hx
  · intro r r' e received consumed hr hx
    cases Relay.step_inv hr with
    | responseUnwritten hp => simp [relayStage, hp]
    | responseWritten hp => simp [relayStage, hp]
    | _ => cases hx

/-- In every run of a connection no more heads are written to the client than
request headers were read from it; when a head is written, a request is there
that none was written for; and when a header is read, every request before it
had its head, and the write of its reply was completed without error. -/
theorem run_answers_once (h : Run (step clientSsl buffer) start tr s) :
    tr.countP writesHead ≤ tr.countP readsHeader ∧
      ∀ before x after, tr = before ++ x :: after →
        (writesHead x = true → before.countP writesHead < before.countP readsHeader) ∧
        (readsHeader x = true → before.countP writesHead = before.countP readsHeader ∧
          before.countP finishesReply = before.countP readsHeader) := by
  refine ⟨(run_balanced h).over, ?_⟩
  intro before x after htr
  subst htr
  obtain ⟨s', hrun, hstep, -⟩ := h.cut
  have hbal := run_balanced hrun
  constructor
  · intro hx
    rw [stage_of_writesHead hstep hx] at hbal
    simp only [Balanced] at hbal
    omega
  · intro hx
    rw [stage_of_readsHeader hstep hx] at hbal
    exact hbal

/-- A CONNECT, an exchange through the tunnel, and a request that gets a `400`:
three headers, three heads. -/
theorem run_answers_once_three :
    ∃ tr s, Run (step false BodyLoop.zeros) start tr s ∧ tr.countP readsHeader = 3 ∧
      tr.countP finishesReply = 3 ∧ tr.countP writesHead ≤ tr.countP readsHeader := by
  have hex : (exec (step false BodyLoop.zeros) start (connectTo "a:80" ++ exchange 4 4 ++
      [.tunnel (.header (.ok Relay.getRoot)), .tunnel (.write none)])).map
        (fun r => (r.1.countP readsHeader, r.1.countP finishesReply)) = some (3, 3) := by
    decide +kernel
  obtain ⟨⟨tr, s⟩, hex, hres⟩ := Option.map_eq_some_iff.1 hex
  obtain ⟨hreads, hreplies⟩ := Prod.mk.inj hres
  have hrun := Run.of_exec hex
  exact ⟨tr, s, hrun, hreads, hreplies, (run_answers_once hrun).1⟩

end Foxy.Proxy
