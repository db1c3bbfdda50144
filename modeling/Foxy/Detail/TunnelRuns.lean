import Foxy.Detail.Tunnel

/-!
# Foxy.Detail.TunnelRuns

Whole runs of `tunnel_op`: what has happened when it hands the connection over
to the relay.
-/

namespace Foxy.Detail.Tunnel

open Http Lib Uri

variable {clientSsl : Bool} {tr : List (Tunnel × TunnelEvent)} {s s' : Tunnel} {e : TunnelEvent}

/-! ### Hand-over -/

/-- The run's last request was a persistent CONNECT to an authority; the
connection to that authority was made, and `200` written. -/
def Granted (clientSsl : Bool) (tr : List (Tunnel × TunnelEvent)) : Prop :=
  ∃ before s₁ s₂ s₃ m,
    tr = before ++ [(s₁, .header (.ok m)), (s₂, .connect none), (s₃, .write none)] ∧
      PersistentConnect m.header ∧
      s₂.point = .connect (parseUri m.header.start.target).host.chars
        (dialPort clientSsl (parseUri m.header.start.target)) ∧
      s₃.point = .replyOk ∧ s₃.response.status = 200

/-- The run ended with that, and with a detection without error. -/
def HandoverSafe (clientSsl : Bool) (tr : List (Tunnel × TunnelEvent)) : Prop :=
  ∃ before s isSsl, tr = before ++ [(s, .detect none isSsl)] ∧ Granted clientSsl before

/-- The reply `400` that was written is the last the connection allows. -/
def LastReply (s : Tunnel) : Prop :=
  (s.point = .replyUnconnected ∧ s.request.header.keepAlive = false) ∨
    (s.point = .replyMalformed ∧ s.request.header.parsedKeepAlive = false)

/-- A step that is safe to hand over after: it neither ends the loop behind a
`400` nor drops the error of the detection. -/
def Careful : Tunnel × TunnelEvent → Prop
  | (s, .write none) => ¬LastReply s
  | (_, .detect failure _) => failure = none
  | _ => True

instance (s : Tunnel) : Decidable (LastReply s) := inferInstanceAs (Decidable (_ ∨ _))

instance : DecidablePred Careful
  | (s, .write none) => inferInstanceAs (Decidable (¬LastReply s))
  | (_, .detect failure _) => inferInstanceAs (Decidable (failure = none))
  | (_, .write (some _)) => isTrue trivial
  | (_, .header _) => isTrue trivial
  | (_, .connect _) => isTrue trivial
  | (_, .relay _ _) => isTrue trivial

/-- What has happened by the time the tunnel is suspended somewhere. -/
def History (clientSsl : Bool) (tr : List (Tunnel × TunnelEvent)) (s : Tunnel) : Prop :=
  match s.point with
  | .readHeader => s.closeTunnel = false ∧ ∀ x ∈ tr, Careful x
  | .replyNonPersistent => s.closeTunnel = true
  | .connect host port => s.closeTunnel = false ∧ (∀ x ∈ tr, Careful x) ∧
      ∃ before s₁ m, tr = before ++ [(s₁, .header (.ok m))] ∧
        host = (parseUri m.header.start.target).host.chars ∧
        port = dialPort clientSsl (parseUri m.header.start.target) ∧
        s.isAbsolute = (parseUri m.header.start.target).isAbsolute ∧
        s.isHttp = (parseUri m.header.start.target).isHttp ∧
        (AbsoluteHttp m.header ∨ PersistentConnect m.header)
  | .replyUnconnected => s.closeTunnel = false ∧ ∀ x ∈ tr, Careful x
  | .replyMalformed => s.closeTunnel = false ∧ ∀ x ∈ tr, Careful x
  | .relay => True
  | .replyOk => (∀ x ∈ tr, Careful x) ∧ s.response.status = 200 ∧
      ∃ before s₁ s₂ m, tr = before ++ [(s₁, .header (.ok m)), (s₂, .connect none)] ∧
        PersistentConnect m.header ∧
        s₂.point = .connect (parseUri m.header.start.target).host.chars
          (dialPort clientSsl (parseUri m.header.start.target))
  | .detect => s.closeTunnel = false ∧
      ((Granted clientSsl tr ∧ ∀ x ∈ tr, Careful x) ∨
        ∃ before st, tr = before ++ [(st, .write none)] ∧ LastReply st)
  | .complete ec closeTunnel => ec = none → closeTunnel = false →
      ∃ before st failure isSsl, tr = before ++ [(st, .detect failure isSsl)] ∧
        ((Granted clientSsl before ∧ ∀ x ∈ before, Careful x) ∨
          ∃ before' st', before = before' ++ [(st', .write none)] ∧ LastReply st')

theorem careful_snoc (h : ∀ x ∈ tr, Careful x) (hx : Careful (s, e)) :
    ∀ x ∈ tr ++ [(s, e)], Careful x := by
  intro x hmem
  rcases List.mem_append.1 hmem with hmem | hmem
  · exact h x hmem
  · rw [List.mem_singleton.1 hmem]
    exact hx

/-- From the write of a `400` on: round again, or out of the loop. -/
theorem history_onReply {keepAlive : Bool} {failure : Option Bytes} (hc : s.closeTunnel = false)
    (hcareful : ∀ x ∈ tr, Careful x) (hlast : LastReply s ↔ keepAlive = false) :
    History clientSsl (tr ++ [(s, .write failure)]) (s.onReply keepAlive failure) := by
  cases failure with
  | some message =>
      intro hnone
      cases hnone
  | none =>
      cases keepAlive with
      | true =>
          refine ⟨hc, careful_snoc hcareful ?_⟩
          exact fun h => absurd (hlast.1 h) (by simp)
      | false =>
          simp only [onReply, afterLoop, hc, Bool.not_false, if_true, Bool.false_eq_true, if_false,
            History]
          exact ⟨trivial, Or.inr ⟨tr, s, rfl, hlast.2 rfl⟩⟩

theorem run_history (h : Run (step clientSsl) start tr s) : History clientSsl tr s := by
  refine h.invariant (I := History clientSsl) ⟨rfl, by simp⟩ ?_
  intro tr s e s' _ hist hs
  cases step_inv hs with
  | headerFailed hp =>
      intro hnone
      cases hnone
  | @header m hp =>
      simp only [History, hp] at hist
      have hcareful : ∀ x ∈ tr ++ [(s, .header (.ok m))], Careful x :=
        careful_snoc hist.2 trivial
      obtain ⟨-, ⟨hp', hc⟩ | ⟨hc, hp' | ⟨hp', habs, hhttp, hkind⟩⟩⟩ := onHeader_cases clientSsl s m
      · simp only [History, hp']
        exact hc
      · simp only [History, hp']
        exact ⟨by rw [hc]; exact hist.1, hcareful⟩
      · simp only [History, hp']
        exact ⟨by rw [hc]; exact hist.1, hcareful, tr, s, m, rfl, rfl, rfl, habs, hhttp, hkind⟩
  | @nonPersistent failure hp =>
      -- the flag is up: the detection is skipped and the proxy told to close
      simp only [History, hp] at hist
      cases failure with
      | some message =>
          intro hnone
          cases hnone
      | none =>
          simp only [onReply, afterLoop, hist, Bool.not_true, Bool.false_eq_true, if_false, History]
          intro _ hfalse
          cases hfalse
  | @connect host port failure hp =>
      simp only [History, hp] at hist
      obtain ⟨hc, hcareful, before, s₁, m, rfl, rfl, rfl, habs, hhttp, hkind⟩ := hist
      have hcareful' := careful_snoc (s := s) (e := .connect failure) hcareful trivial
      cases failure with
      | some message => exact ⟨hc, hcareful'⟩
      | none =>
          simp only [onConnect]
          by_cases hrelay : (s.isAbsolute && s.isHttp) = true
          · rw [if_pos hrelay]
            trivial
          · rw [if_neg hrelay]
            refine ⟨hcareful', rfl, before, s₁, s, m, by simp, ?_, hp⟩
            rcases hkind with ⟨ha, hh⟩ | hconnect
            · rw [habs, hhttp, ha, hh] at hrelay
              exact absurd rfl hrelay
            · exact hconnect
  | @unconnected failure hp =>
      simp only [History, hp] at hist
      exact history_onReply hist.1 hist.2 (by simp [LastReply, hp])
  | @malformed failure hp =>
      simp only [History, hp] at hist
      exact history_onReply hist.1 hist.2 (by simp [LastReply, hp])
  | relayFailed hp =>
      intro hnone
      cases hnone
  | relayed hp =>
      simp only [afterLoop, Bool.not_true, Bool.false_eq_true, if_false, History]
      intro _ hfalse
      cases hfalse
  | okFailed hp =>
      intro hnone
      cases hnone
  | okWritten hp =>
      simp only [History, hp] at hist
      obtain ⟨hcareful, hstatus, before, s₁, s₂, m, rfl, hconnect, hp₂⟩ := hist
      simp only [afterLoop, Bool.not_false, if_true, History]
      refine ⟨trivial, Or.inl ⟨⟨before, s₁, s₂, s, m, by simp, hconnect, hp₂, hp, hstatus⟩, ?_⟩⟩
      exact careful_snoc hcareful (by simp [Careful, LastReply, hp])
  | @detected failure isSsl hp =>
      simp only [History, hp] at hist
      simp only [History]
      intro _ _
      exact ⟨tr, s, failure, isSsl, rfl, hist.2⟩

/-- A run that hands the connection over, that is, completes without error and
with `close_tunnel` false, does so behind a granted CONNECT and a clean
detection, exactly when no step of it left the loop behind a `400` to a request
that was the last on its connection, and the detection did not fail. -/
theorem run_handover_iff (h : Run (step clientSsl) start tr s)
    (hp : s.point = .complete none false) :
    HandoverSafe clientSsl tr ↔ ∀ x ∈ tr, Careful x := by
  have hist := run_history h
  simp only [History, hp] at hist
  obtain ⟨before, st, failure, isSsl, rfl, hcase⟩ := hist trivial trivial
  rcases hcase with ⟨hgranted, hcareful⟩ | ⟨before', st', rfl, hlast⟩
  · constructor
    · intro hsafe
      obtain ⟨before', st', isSsl', heq, -⟩ := hsafe
      obtain ⟨-, hlast⟩ := List.append_inj' heq rfl
      simp only [List.cons.injEq, Prod.mk.injEq, TunnelEvent.detect.injEq] at hlast
      exact careful_snoc hcareful hlast.1.2.1
    · intro hall
      obtain rfl : failure = none := hall (st, .detect failure isSsl) (by simp)
      exact ⟨before, st, isSsl, rfl, hgranted⟩
  · constructor
    · -- the write before the detection is not that of a `200`
      intro hsafe
      obtain ⟨before'', st'', isSsl', heq, before₃, s₁, s₂, s₃, m, rfl, -, -, hp₃, -⟩ := hsafe
      obtain ⟨hpre, -⟩ := List.append_inj' heq rfl
      have hsplit : before₃ ++ [(s₁, .header (.ok m)), (s₂, .connect none), (s₃, .write none)] =
          (before₃ ++ [(s₁, .header (.ok m)), (s₂, .connect none)]) ++ [(s₃, .write none)] := by simp
      rw [hsplit] at hpre
      obtain ⟨-, hwrite⟩ := List.append_inj' hpre rfl
      simp only [List.cons.injEq, Prod.mk.injEq] at hwrite
      rw [LastReply, hwrite.1.1, hp₃] at hlast
      simp at hlast
    · intro hall
      exact absurd hlast (hall (st', .write none) (by simp))

/-- `CONNECT h:80 HTTP/1.1`. -/
def connectH : Incoming RequestLine := ⟨⟨⟨.connect, ascii "h:80"⟩, 11, []⟩, []⟩

/-- A granted CONNECT. -/
theorem run_handover_connect :
    ∃ tr s, Run (step false) start tr s ∧ s.point = .complete none false ∧ HandoverSafe false tr := by
  have hex : (exec (step false) start [.header (.ok connectH), .connect none, .write none,
      .detect none (some false)]).map
        (fun r => (r.2.point, r.1.all fun x => decide (Careful x))) =
          some (.complete none false, true) := by decide +kernel
  obtain ⟨⟨tr, s⟩, hex, hres⟩ := Option.map_eq_some_iff.1 hex
  obtain ⟨hp, hall⟩ := Prod.mk.inj hres
  have hrun := Run.of_exec hex
  refine ⟨tr, s, hrun, hp, (run_handover_iff hrun hp).2 ?_⟩
  simpa using hall

/-- `GET / HTTP/1.1` with `Connection: close`. -/
def getClose : Incoming RequestLine :=
  ⟨⟨⟨.other (ascii "GET"), ascii "/"⟩, 11, [⟨ascii "Connection", ascii "close"⟩]⟩, []⟩

/-- A malformed request, the last on its connection, is answered with `400` and
the connection handed over all the same; and so is one on which the detection
failed. -/
theorem run_handover_unsafe :
    (∃ tr s, Run (step false) start tr s ∧ s.point = .complete none false ∧
      tr.map (fun x => x.1.point) = [.readHeader, .replyMalformed, .detect] ∧
      ¬HandoverSafe false tr) ∧
    ∃ tr s, Run (step false) start tr s ∧ s.point = .complete none false ∧
      ¬HandoverSafe false tr := by
  constructor
  · have hex : (exec (step false) start [.header (.ok getClose), .write none,
        .detect none (some false)]).map (fun r => (r.2.point, r.1.map fun x => x.1.point)) =
          some (.complete none false, [.readHeader, .replyMalformed, .detect]) := by decide +kernel
    obtain ⟨⟨tr, s⟩, hex, hres⟩ := Option.map_eq_some_iff.1 hex
    obtain ⟨hp, hpoints⟩ := Prod.mk.inj hres
    refine ⟨tr, s, Run.of_exec hex, hp, hpoints, ?_⟩
    intro hsafe
    obtain ⟨before, st, isSsl, rfl, before', s₁, s₂, s₃, m, rfl, -, -, -, -⟩ := hsafe
    have hlen := congrArg List.length hpoints
    simp at hlen
  · have hex : (exec (step false) start [.header (.ok connectH), .connect none, .write none,
        .detect (some (ascii "reset")) none]).map
          (fun r => (r.2.point, r.1.getLast?.all fun x => decide (Careful x))) =
            some (.complete none false, false) := by decide +kernel
    obtain ⟨⟨tr, s⟩, hex, hres⟩ := Option.map_eq_some_iff.1 hex
    obtain ⟨hp, hlast⟩ := Prod.mk.inj hres
    refine ⟨tr, s, Run.of_exec hex, hp, ?_⟩
    intro hsafe
    obtain ⟨before, st, isSsl, rfl, -⟩ := hsafe
    simp [Careful] at hlast

end Foxy.Detail.Tunnel
