import Foxy.Session.Basic

/-!
# Foxy.Session.Client

The routines of a client session (`foxy/client_session.hpp` and
`foxy/impl/client_session`): `async_connect`, `async_request` and
`async_shutdown`, and what a connect that reports success has done.
-/

namespace Foxy.Session

open Lib

/-- The handshake at the end of `connect_op`. -/
def connectHandshake : Routine Outcome :=
  .call (.handshake .client false) fun a => complete a.ec

/-- `connect_op` on a TLS session once the socket is connected. Setting the names
throws where it fails. -/
def connectTls (host : Bytes) : Routine Outcome :=
  .look fun s =>
    if s.opts.verifyPeerCert then
      .call (.setSniHostname host) fun a =>
        match a.ec with
        | some ec => .done (.threw ec)
        | none =>
          .call (.setServerHostname host) fun a =>
            match a.ec with
            | some ec => .done (.threw ec)
            | none => connectHandshake
    else connectHandshake

/-- `connect_op`. -/
def connectOp (host service : Bytes) : Routine Outcome :=
  .call (.resolve host service) fun a =>
    match a.ec with
    | some ec => complete (some ec)
    | none =>
      .call .connect fun a =>
        match a.ec with
        | some ec => complete (some ec)
        | none => .look fun s => if s.stream.isSsl then connectTls host else complete none

/-- `async_connect(host, service)`. -/
def asyncConnect (host service : Bytes) : Routine Outcome := asyncTimer (connectOp host service)

/-- `async_request(request, parser)`. -/
def asyncRequest : Routine Outcome :=
  asyncTimer (.call .write fun a =>
    match a.ec with
    | some ec => complete (some ec)
    | none => .call .read fun a => complete a.ec)

/-- The end of a client's `async_shutdown`: the result is that of `close`. -/
def closeSocket : Routine Outcome :=
  .call (.shutdown .both) fun _ => .call .close fun a => complete a.ec

/-- `async_shutdown()` of a client session. -/
def clientShutdown : Routine Outcome :=
  asyncTimer (.look fun s =>
    if s.stream.isSsl then
      .call .sslShutdown fun a =>
        -- a truncated stream counts as shut down
        match a.ec with
        | none | some .streamTruncated => closeSocket
        | some ec => complete (some ec)
    else closeSocket)

/-! ### Connecting -/

/-- What a TLS session does once the socket is connected. -/
def handshakePlan (s : Session) (host : Bytes) : List SessionOp :=
  if s.opts.verifyPeerCert then
    [.setSniHostname host, .setServerHostname host, .handshake .client false]
  else [.handshake .client false]

/-- What a connect does, in this order, if nothing fails. -/
def connectPlan (s : Session) (host service : Bytes) : List SessionOp :=
  .resolve host service :: .connect :: if s.stream.isSsl then handshakePlan s host else []

/-- The names a handshake of the session is made with. -/
def connectNames (s : Session) (tls : Ssl) (host : Bytes) : Option Bytes × Option Bytes :=
  if s.opts.verifyPeerCert then (some host, some host) else (tls.sni, tls.verifyHost)

/-- What a connect that reports success has made of the session. -/
structure Connected (s₀ : Session) (host service : Bytes) (s : Session) : Prop where
  log : s.log = s₀.log ++ connectPlan s₀ host service
  names : ∀ tls, s₀.stream.ssl? = some tls → tls.handshake = none →
    s.stream.ssl?.bind Ssl.handshake = some (connectNames s₀ tls host)
  /-- The time may have run out before there was a socket to close, or after the
  handshake was made. -/
  expiredIn : s.expiredIn = none ∨ s.expiredIn = some (.resolve host service) ∨
    s₀.stream.isSsl = true ∧ s.expiredIn = some (.handshake .client false)
  isOpen : s.isOpen = true ↔ s.expiredIn ≠ some (.handshake .client false)

variable {s s' s₀ : Session} {a : Answer} {host service : Bytes}

theorem delivers_resolve (h : net.Delivers (.resolve host service) s a s') :
    s' = s.initiate (.resolve host service) ∨
      s' = (s.initiate (.resolve host service)).expire (.resolve host service) := by
  rcases delivers_cases h with ⟨-, rfl⟩ | ⟨-, -, rfl⟩ | ⟨a₀, -, -, rfl, -⟩
  · exact Or.inl rfl
  · exact Or.inr rfl
  · exact Or.inr rfl

/-- A connect that succeeds was not run into by the timer. -/
theorem delivers_connect (h : net.Delivers .connect s a s') (ha : a.ec = none) :
    s' = s.initiate .connect := by
  rcases delivers_cases h with ⟨-, rfl⟩ | ⟨-, hallow, -⟩ | ⟨a₀, -, -, -, rfl⟩
  · rfl
  · simp [allows, ha] at hallow
  · simp [lateAnswer] at ha

/-- A handshake that succeeds: where the time ran out in it, the socket is
closed. -/
theorem delivers_handshake {role : Role} {buffered : Bool}
    (h : net.Delivers (.handshake role buffered) s a s') (ha : a.ec = none) :
    (s'.stream.ssl?.bind Ssl.handshake = s.stream.ssl?.bind fun tls =>
      tls.handshake.or (some (tls.sni, tls.verifyHost))) ∧
    (s'.isOpen = s.isOpen ∧ s'.expiredIn = s.expiredIn ∨
      s'.isOpen = false ∧ s'.expiredIn = some (.handshake role buffered)) := by
  have hne : SessionOp.handshake role buffered ≠ .connect := by simp
  have heff : ∀ (r : Session) (b : Answer), b.ec = none →
      (r.effect (.handshake role buffered) b).stream.ssl?.bind Ssl.handshake =
        r.stream.ssl?.bind fun tls => tls.handshake.or (some (tls.sni, tls.verifyHost)) := by
    intro r b hb
    cases htls : r.stream.ssl? with
    | none => simp [effect, handshaken, hb, htls]
    | some tls => cases hmade : tls.handshake <;> simp [effect, handshaken, hb, htls, hmade]
  rcases delivers_cases h with ⟨-, rfl⟩ | ⟨-, -, rfl⟩ | ⟨a₀, -, -, rfl, rfl⟩
  · refine ⟨by simpa using heff (s.initiate (.handshake role buffered)) a ha, Or.inl ?_⟩
    simp [effect_isOpen, initiate_isOpen _ hne]
  · refine ⟨by simpa using heff ((s.initiate (.handshake role buffered)).expire _) a ha,
      Or.inr ?_⟩
    simp [effect_isOpen]
  · refine ⟨by simpa using heff (s.initiate (.handshake role buffered)) a ha, Or.inr ?_⟩
    simp

/-- A failure that is reported promises nothing. -/
theorem wp_failed {I P : Session → Prop} {ec : ErrorCode} (h : I s) :
    net.wp I (complete (some ec)) (fun o s => ∀ a, o = .completed a → a.ec = none → P s) s := by
  refine ⟨h, ?_⟩
  intro a ha hnone
  obtain rfl : { ec := some ec } = a := by simpa using ha
  cases hnone

theorem wp_threw {I P : Session → Prop} {ec : ErrorCode} (h : I s) :
    net.wp I (.done (Outcome.threw ec)) (fun o s => ∀ a, o = .completed a → a.ec = none → P s) s := by
  refine ⟨h, ?_⟩
  intro a ha
  cases ha

/-- The handshake: everything before it went well. -/
theorem wp_connectHandshake {tls₀ tls : Ssl}
    (hplan : s₀.log ++ connectPlan s₀ host service = s.log ++ [.handshake .client false])
    (htls₀ : s₀.stream.ssl? = some tls₀) (htls : s.stream.ssl? = some tls)
    (hmade : tls.handshake = tls₀.handshake)
    (hnames : (tls.sni, tls.verifyHost) = connectNames s₀ tls₀ host)
    (hexp : s.expiredIn = none ∨ s.expiredIn = some (.resolve host service))
    (hopen : s.isOpen = true) :
    net.wp (OnPlan (s₀.log ++ connectPlan s₀ host service)) connectHandshake
      (fun o s => ∀ a, o = .completed a → a.ec = none → Connected s₀ host service s) s := by
  refine wp_call_plan hplan ?_
  intro a s' hd hbegun
  have hlog : s'.log = s₀.log ++ connectPlan s₀ host service := by rw [delivers_log hd, hplan]
  have hssl : s₀.stream.isSsl = true := by
    cases hs : s₀.stream with
    | plain socket => simp [hs, MultiStream.ssl?] at htls₀
    | ssl socket tls => rfl
  refine ⟨hbegun, ?_⟩
  intro b hb hnone
  obtain rfl : { ec := a.ec } = b := by simpa using hb
  obtain ⟨hshake, htime⟩ := delivers_handshake hd hnone
  refine ⟨hlog, ?_, ?_, ?_⟩
  · intro tls' htls' hno
    obtain rfl : tls₀ = tls' := Option.some.inj (htls₀.symm.trans htls')
    rw [hshake, htls, Option.bind_some, hmade, hno, Option.none_or, hnames]
  · rcases htime with ⟨-, he⟩ | ⟨-, he⟩
    · rcases hexp with h | h
      · exact Or.inl (he.trans h)
      · exact Or.inr (Or.inl (he.trans h))
    · exact Or.inr (Or.inr ⟨hssl, he⟩)
  · rcases htime with ⟨ho, he⟩ | ⟨ho, he⟩
    · rw [ho, he, hopen]
      rcases hexp with h | h <;> simp [h]
    · simp [ho, he]

/-- A TLS session from the connected socket on. -/
theorem wp_connectTls {tls₀ : Ssl}
    (hplan : s₀.log ++ connectPlan s₀ host service = s.log ++ handshakePlan s₀ host)
    (hopts : s.opts = s₀.opts)
    (htls₀ : s₀.stream.ssl? = some tls₀) (htls : s.stream.ssl? = some tls₀)
    (hexp : s.expiredIn = none ∨ s.expiredIn = some (.resolve host service))
    (hopen : s.isOpen = true) :
    net.wp (OnPlan (s₀.log ++ connectPlan s₀ host service)) (connectTls host)
      (fun o s => ∀ a, o = .completed a → a.ec = none → Connected s₀ host service s) s := by
  rw [connectTls, Surroundings.wp_look, hopts]
  cases hverify : s₀.opts.verifyPeerCert with
  | false =>
      simp only [Bool.false_eq_true, if_false]
      rw [handshakePlan, hverify, if_neg (by simp)] at hplan
      refine wp_connectHandshake hplan htls₀ htls rfl ?_ hexp hopen
      simp [connectNames, hverify]
  | true =>
      simp only [if_true]
      rw [handshakePlan, hverify, if_pos rfl] at hplan
      refine wp_call_plan hplan ?_
      intro a s₁ hd₁ hbegun₁
      have hlog₁ := delivers_log hd₁
      have hs₁ := delivers_sync rfl hd₁
      cases hec : a.ec with
      | some ec => exact wp_threw hbegun₁
      | none =>
          have hplan₁ : s₀.log ++ connectPlan s₀ host service =
              s₁.log ++ [.setServerHostname host, .handshake .client false] := by
            rw [hlog₁, hplan]
            simp
          refine wp_call_plan hplan₁ ?_
          intro a₂ s₂ hd₂ hbegun₂
          have hlog₂ := delivers_log hd₂
          have hs₂ := delivers_sync rfl hd₂
          cases hec₂ : a₂.ec with
          | some ec => exact wp_threw hbegun₂
          | none =>
              have htls₁ : s₁.stream.ssl? = some { tls₀ with sni := some host } := by
                simp [hs₁, effect, hec, htls]
              have htls₂ : s₂.stream.ssl? =
                  some { tls₀ with sni := some host, verifyHost := some host } := by
                simp [hs₂, effect, hec₂, htls₁]
              refine wp_connectHandshake ?_ htls₀ htls₂ rfl ?_ ?_ ?_
              · rw [hlog₂, hplan₁]
                simp
              · simp [connectNames, hverify]
              · simpa [hs₂, hs₁] using hexp
              · rw [hs₂, effect_isOpen _ (by simp), initiate_isOpen _ (by simp), hs₁,
                  effect_isOpen _ (by simp), initiate_isOpen _ (by simp), hopen]

theorem wp_connectOp (s₀ : Session) (host service : Bytes) :
    net.wp (OnPlan (s₀.log ++ connectPlan s₀ host service)) (connectOp host service)
      (fun o s => ∀ a, o = .completed a → a.ec = none → Connected s₀ host service s) s₀.arm := by
  have hplan : s₀.log ++ connectPlan s₀ host service =
      s₀.arm.log ++ .resolve host service :: (connectPlan s₀ host service).tail := rfl
  refine wp_call_plan hplan ?_
  intro a s₁ hd₁ hbegun₁
  have hlog₁ := delivers_log hd₁
  have hs₁ := delivers_resolve hd₁
  cases hec : a.ec with
  | some ec => exact wp_failed hbegun₁
  | none =>
      have hplan₁ : s₀.log ++ connectPlan s₀ host service =
          s₁.log ++ .connect :: (connectPlan s₀ host service).tail.tail := by
        rw [hlog₁]
        simp [connectPlan, arm]
      refine wp_call_plan hplan₁ ?_
      intro a₂ s₂ hd₂ hbegun₂
      have hlog₂ := delivers_log hd₂
      cases hec₂ : a₂.ec with
      | some ec => exact wp_failed hbegun₂
      | none =>
          obtain rfl := delivers_connect hd₂ hec₂
          have hopen : (s₁.initiate .connect).isOpen = true := by simp [initiate, isOpen]
          have hexp : s₁.expiredIn = none ∨ s₁.expiredIn = some (.resolve host service) := by
            rcases hs₁ with rfl | rfl
            · exact Or.inl (by simp [arm])
            · exact Or.inr (by simp)
          have hopts : s₁.opts = s₀.opts := by rcases hs₁ with rfl | rfl <;> simp [arm]
          have hstream : s₁.stream.isSsl = s₀.stream.isSsl ∧ s₁.stream.ssl? = s₀.stream.ssl? := by
            rcases hs₁ with rfl | rfl <;> simp [arm]
          rw [Surroundings.wp_look, initiate_isSsl, hstream.1]
          cases hs₀ : s₀.stream with
          | plain socket =>
              have hend : s₀.log ++ connectPlan s₀ host service = s₁.log ++ [.connect] := by
                rw [hplan₁]
                simp [connectPlan, hs₀, MultiStream.isSsl]
              refine ⟨hbegun₂, ?_⟩
              intro b _ _
              refine ⟨by rw [hlog₂, hend], ?_, ?_, ?_⟩
              · intro tls htls
                rw [hs₀] at htls
                cases htls
              · rcases hexp with h | h
                · exact Or.inl (by simpa using h)
                · exact Or.inr (Or.inl (by simpa using h))
              · rcases hexp with h | h <;> simp [hopen, h]
          | ssl socket tls =>
              have htls₀ : s₀.stream.ssl? = some tls := by rw [hs₀]; rfl
              refine wp_connectTls ?_ (by simp [hopts]) htls₀ ?_ ?_ hopen
              · rw [hlog₂, hplan₁]
                simp [connectPlan, hs₀, MultiStream.isSsl]
              · rw [initiate_ssl?, hstream.2, htls₀]
              · simpa using hexp

theorem Connected.disarm (h : Connected s₀ host service s) :
    Connected s₀ host service s.disarm :=
  ⟨h.log, h.names, h.expiredIn, h.isOpen⟩

theorem wp_asyncConnect (s₀ : Session) (host service : Bytes) :
    net.wp (OnPlan (s₀.log ++ connectPlan s₀ host service)) (asyncConnect host service)
      (fun o s => ∀ a, o = .completed a → a.ec = none → Connected s₀ host service s) s₀ := by
  refine wp_asyncTimer (wp_connectOp s₀ host service) (fun _ h => h) ?_
  intro o s hQ a ha hnone
  exact (hQ a ha hnone).disarm

section runs

variable {tr : List (Coroutine Session SessionOp Answer Outcome × ScriptEvent Answer Unit)}
  {c : Coroutine Session SessionOp Answer Outcome}

/-- In every run of a connect, what was called is the beginning of the plan, and
all of it where the connect reports success. The handshake of a TLS session was
then made with the host as the name asked for and the name expected, if the
peer's certificate is to be verified. -/
theorem asyncConnect_plan (hr : Run net.step (net.enter s₀ (asyncConnect host service)) tr c) :
    c.world.log <+: s₀.log ++ connectPlan s₀ host service ∧
      ∀ a, c.result = some (.completed a) → a.ec = none →
        c.world.log = s₀.log ++ connectPlan s₀ host service ∧
          ∀ tls, s₀.stream.ssl? = some tls → tls.handshake = none →
            c.world.stream.ssl?.bind Ssl.handshake = some (connectNames s₀ tls host) := by
  obtain ⟨hplan, hend⟩ := Surroundings.run_wp hr (wp_asyncConnect s₀ host service)
  refine ⟨hplan, ?_⟩
  intro a hf hnone
  have hconn := hend _ hf a rfl hnone
  exact ⟨hconn.log, hconn.names⟩

/-- Where a connect reports success although the time ran out, it ran out while
the name was being resolved, and the socket is open, or after the handshake was
made, and the socket is closed. -/
theorem asyncConnect_timeout (hr : Run net.step (net.enter s₀ (asyncConnect host service)) tr c)
    {a : Answer} (hf : c.result = some (.completed a)) (hnone : a.ec = none) :
    (c.world.expiredIn = none ∨ c.world.expiredIn = some (.resolve host service) ∨
      s₀.stream.isSsl = true ∧ c.world.expiredIn = some (.handshake .client false)) ∧
    (c.world.isOpen = true ↔ c.world.expiredIn ≠ some (.handshake .client false)) := by
  have hconn := (Surroundings.run_wp hr (wp_asyncConnect s₀ host service)).2 _ hf a rfl hnone
  exact ⟨hconn.expiredIn, hconn.isOpen⟩

/-- An operation answers without error and the answer is delivered. -/
def succeeds : List (ScriptEvent Answer Unit) := [.complete {}, .deliver]

/-- A TLS session with everything going well. -/
theorem asyncConnect_plan_tls :
    ∃ tr c, Run net.step (net.enter (ofOpts { sslCtx := true })
        (asyncConnect (ascii "a.example") (ascii "443"))) tr c ∧
      c.result = some (.completed {}) ∧
      c.world.log = connectPlan (ofOpts { sslCtx := true }) (ascii "a.example") (ascii "443") ∧
      c.world.stream.ssl?.bind Ssl.handshake =
        some (some (ascii "a.example"), some (ascii "a.example")) := by
  have hex : (exec net.step (net.enter (ofOpts { sslCtx := true })
      (asyncConnect (ascii "a.example") (ascii "443")))
      (succeeds ++ succeeds ++ succeeds ++ succeeds ++ succeeds)).map (·.2.result) =
      some (some (.completed {})) := by decide
  obtain ⟨⟨tr, c⟩, hex, hc⟩ := Option.map_eq_some_iff.1 hex
  have hrun := Run.of_exec hex
  obtain ⟨hlog, hnames⟩ := (asyncConnect_plan hrun).2 {} hc rfl
  exact ⟨tr, c, hrun, hc, hlog, hnames {} rfl rfl⟩

/-- The time runs out while the name is being resolved: the connect goes on and
succeeds, with nothing to limit it any more. -/
theorem asyncConnect_timeout_resolving :
    ∃ tr c, Run net.step (net.enter (ofOpts {})
        (asyncConnect (ascii "a.example") (ascii "80"))) tr c ∧
      c.result = some (.completed {}) ∧
      c.world.expiredIn = some (.resolve (ascii "a.example") (ascii "80")) ∧
      c.world.isOpen = true := by
  have hex : (exec net.step (net.enter (ofOpts {}) (asyncConnect (ascii "a.example") (ascii "80")))
      (.disturb () :: succeeds ++ succeeds)).map (fun r => (r.2.result, r.2.world.expiredIn)) =
      some (some (.completed {}), some (.resolve (ascii "a.example") (ascii "80"))) := by decide
  obtain ⟨⟨tr, c⟩, hex, hc⟩ := Option.map_eq_some_iff.1 hex
  obtain ⟨hc, hexp⟩ := Prod.mk.inj hc
  have hrun := Run.of_exec hex
  refine ⟨tr, c, hrun, hc, hexp, ?_⟩
  rw [(asyncConnect_timeout hrun hc rfl).2, hexp]
  simp

end runs

/-! ### Shutting down -/

/-- What a client's shutdown does, unless that of TLS fails. -/
def clientShutdownPlan (s : Session) : List SessionOp :=
  (if s.stream.isSsl then [.sslShutdown] else []) ++ [.shutdown .both, .close]

/-- How a client's shutdown ends: with the socket closed, or with an error of TLS,
after which nothing but the timer closes it. -/
def ShutDown (s₀ : Session) (o : Outcome) (s : Session) : Prop :=
  ∃ a, o = .completed a ∧
    (s.log = s₀.log ++ clientShutdownPlan s₀ ∧ s.isOpen = false ∨
      s₀.stream.isSsl = true ∧ s.log = s₀.log ++ [.sslShutdown] ∧ a.ec ≠ none ∧
        (s.isOpen = true ↔ s₀.isOpen = true ∧ s.expiredIn = none))

theorem wp_closeSocket (hplan : s₀.log ++ clientShutdownPlan s₀ = s.log ++ [.shutdown .both, .close]) :
    net.wp (OnPlan (s₀.log ++ clientShutdownPlan s₀)) closeSocket (ShutDown s₀) s := by
  refine wp_call_plan hplan ?_
  intro a₁ s₁ hd₁ _
  have hplan₁ : s₀.log ++ clientShutdownPlan s₀ = s₁.log ++ [.close] := by
    rw [hplan, delivers_log hd₁]
    simp
  refine wp_call_plan hplan₁ ?_
  intro a₂ s₂ hd₂ hbegun
  exact ⟨hbegun, _, rfl, Or.inl ⟨by rw [delivers_log hd₂, hplan₁], delivers_close hd₂⟩⟩

/-- The shutdown of TLS leaves the socket to the timer. -/
theorem delivers_sslShutdown (h : net.Delivers .sslShutdown s a s') (hexp : s.expiredIn = none) :
    s'.isOpen = true ↔ s.isOpen = true ∧ s'.expiredIn = none := by
  have hopen : (s.initiate .sslShutdown).isOpen = s.isOpen := initiate_isOpen s (by simp)
  rcases delivers_cases h with ⟨-, rfl⟩ | ⟨-, -, rfl⟩ | ⟨a₀, -, -, rfl, -⟩
  · rw [effect_isOpen _ (by simp), hopen, effect_expiredIn, initiate_expiredIn, hexp]
    simp
  · simp [effect_isOpen]
  · simp

/-- A client's shutdown always completes; it leaves the socket open only where it
reports an error of TLS. -/
theorem wp_clientShutdown (s₀ : Session) :
    net.wp (OnPlan (s₀.log ++ clientShutdownPlan s₀)) clientShutdown (ShutDown s₀) s₀ := by
  refine wp_asyncTimer ?_ (fun _ h => h) (fun _ _ h => h)
  rw [Surroundings.wp_look]
  split
  · rename_i hssl
    have hssl : s₀.stream.isSsl = true := hssl
    have hplan : s₀.log ++ clientShutdownPlan s₀ =
        s₀.arm.log ++ .sslShutdown :: [.shutdown .both, .close] := by
      simp [clientShutdownPlan, hssl, arm]
    refine wp_call_plan hplan ?_
    intro a s₁ hd hbegun
    have hclose : s₀.log ++ clientShutdownPlan s₀ = s₁.log ++ [.shutdown .both, .close] := by
      rw [hplan, delivers_log hd]
      simp
    split
    · exact wp_closeSocket hclose
    · exact wp_closeSocket hclose
    · have hlog : s₁.log = s₀.arm.log ++ [.sslShutdown] := delivers_log hd
      have hopen : s₁.isOpen = true ↔ s₀.arm.isOpen = true ∧ s₁.expiredIn = none :=
        delivers_sslShutdown hd rfl
      exact ⟨hbegun, _, rfl, Or.inr ⟨hssl, hlog, by simp, hopen⟩⟩
  · rename_i hplain
    have hplain : s₀.stream.isSsl = false := by simpa [arm] using hplain
    refine wp_closeSocket ?_
    simp [clientShutdownPlan, hplain, arm]

section runs

variable {tr : List (Coroutine Session SessionOp Answer Outcome × ScriptEvent Answer Unit)}
  {c : Coroutine Session SessionOp Answer Outcome}

/-- In every run of a client's shutdown, what was called is the beginning of the
plan, and the shutdown ends by completing. The socket is open then exactly if it
was before, the shutdown of TLS was all that was done and the time did not run
out; an error is reported in that case. -/
theorem clientShutdown_open (hr : Run net.step (net.enter s₀ clientShutdown) tr c) :
    c.world.log <+: s₀.log ++ clientShutdownPlan s₀ ∧
      ∀ o, c.result = some o → ∃ a, o = .completed a ∧
        (c.world.isOpen = true ↔ s₀.isOpen = true ∧ c.world.expiredIn = none ∧
          c.world.log = s₀.log ++ [.sslShutdown]) ∧
        (c.world.isOpen = true → a.ec ≠ none) := by
  obtain ⟨hplan, hend⟩ := Surroundings.run_wp hr (wp_clientShutdown s₀)
  refine ⟨hplan, ?_⟩
  intro o ho
  obtain ⟨a, rfl, hend⟩ := hend o ho
  refine ⟨a, rfl, ?_⟩
  rcases hend with ⟨hlog, hclosed⟩ | ⟨hssl, hlog, hfail, hopen⟩
  · have hmore : clientShutdownPlan s₀ ≠ [.sslShutdown] := by
      unfold clientShutdownPlan
      split <;> simp
    simp [hclosed, hlog, hmore]
  · rw [hopen]
    exact ⟨⟨fun h => ⟨h.1, h.2, hlog⟩, fun h => ⟨h.1, h.2.1⟩⟩, fun _ => hfail⟩

/-- The shutdown of TLS fails: an error is reported, and the socket stays open. -/
theorem clientShutdown_open_failed :
    ∃ tr c a, Run net.step (net.enter { opts := {}, stream := .ssl ⟨true⟩ {} } clientShutdown) tr c ∧
      c.result = some (.completed a) ∧ c.world.isOpen = true ∧ a.ec ≠ none := by
  have hex : (exec net.step (net.enter { opts := {}, stream := .ssl ⟨true⟩ {} } clientShutdown)
      [.complete { ec := some .eof }, .deliver]).map
      (fun r => (r.2.result, r.2.world.log, r.2.world.expiredIn)) =
      some (some (.completed { ec := some .eof }), [.sslShutdown], none) := by decide
  obtain ⟨⟨tr, c⟩, hex, hc⟩ := Option.map_eq_some_iff.1 hex
  obtain ⟨hres, hc⟩ := Prod.mk.inj hc
  obtain ⟨hlog, hexp⟩ := Prod.mk.inj hc
  have hrun := Run.of_exec hex
  obtain ⟨a, ha, hopen, hfail⟩ := (clientShutdown_open hrun).2 _ hres
  have hopen := hopen.2 ⟨rfl, hexp, hlog⟩
  exact ⟨tr, c, a, hrun, hres.trans (congrArg some ha), hopen, hfail hopen⟩

end runs

end Foxy.Session
