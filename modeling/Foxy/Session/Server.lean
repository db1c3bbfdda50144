import Foxy.Session.Basic

/-!
# Foxy.Session.Server

The routines of a server session (`foxy/server_session.hpp` and
`foxy/impl/server_session`): `async_detect_ssl`, `async_handshake` and
`async_shutdown`; what is parsed after a handshake, and how far a shutdown goes.
-/

namespace Foxy.Session

open Lib

/-- `async_detect_ssl()`. -/
def asyncDetectSsl : Routine Outcome :=
  asyncTimer (.call .detectSsl fun a =>
    .done (.completed { ec := a.ec, detectedSsl := a.detectedSsl }))

/-- `s.buffer.consume(n)`. -/
def consume (n : Nat) (s : Session) : Session := { s with buffer := s.buffer.drop n }

/-- `if (!s.stream.is_ssl() && s.opts.ssl_ctx) { s.stream.upgrade(*s.opts.ssl_ctx); }` -/
def upgradeIfAsked (s : Session) : Session :=
  if !s.stream.isSsl && s.opts.sslCtx then { s with stream := s.stream.upgrade } else s

/-- `async_handshake()`. What is in the buffer goes first. -/
def asyncHandshake : Routine Outcome :=
  asyncTimer (.sync upgradeIfAsked fun s =>
    if !s.stream.isSsl then .done .terminated
    else if 0 < s.buffer.length then
      .call (.handshake .server true) fun a =>
        match a.ec with
        | some ec => complete (some ec)
        | none =>
          .modify (consume a.bytesTransferred)
            (.done (.completed { bytesTransferred := a.bytesTransferred }))
    else .call (.handshake .server false) fun a => complete a.ec)

/-- The stages of a tear-down: none of the errors is looked at but the last. -/
def tearDown : Routine Outcome :=
  .call (.shutdown .send) fun _ =>
    .call (.readSome 1024) fun _ =>
      .call (.shutdown .receive) fun _ => .call .close fun a => complete a.ec

/-- `async_shutdown()` of a server session. -/
def serverShutdown : Routine Outcome :=
  asyncTimer (.look fun s =>
    if s.stream.isSsl then .call .sslShutdown fun _ => tearDown else tearDown)

variable {s s' s₀ : Session} {a : Answer}

/-! ### What is parsed after a handshake -/

/-- The bytes parsed and those in the buffer, in the order in which they came. -/
def arrived (s : Session) : List ReceivedByte := s.parsed ++ s.buffer

/-- On a TLS stream every byte that comes is one that came out of TLS. -/
theorem overTls_of_mem_incoming (hssl : s.stream.isSsl = true) {received : Bytes}
    {b : ReceivedByte} (h : b ∈ s.incoming received) : b.overTls = true := by
  obtain ⟨value, -, rfl⟩ := List.mem_map.1 h
  exact hssl

theorem arrived_fill (s : Session) (a : Answer) :
    (s.fill a).arrived = s.arrived ++ s.incoming a.received := by
  simp only [arrived, fill, filled]
  rw [List.append_assoc, List.take_append_drop, List.append_assoc]

/-- A read adds what came out of TLS. -/
theorem delivers_read (h : net.Delivers .read s a s') (hssl : s.stream.isSsl = true) :
    ∃ came, s'.arrived = s.arrived ++ came ∧ ∀ b ∈ came, b.overTls = true := by
  have hi : (s.initiate .read).arrived = s.arrived := by simp [arrived]
  have hstep : ∀ (r : Session) (b : Answer), r.stream.isSsl = true → r.arrived = s.arrived →
      ∃ came, (r.effect .read b).arrived = s.arrived ++ came ∧ ∀ b ∈ came, b.overTls = true := by
    intro r b hr ha
    refine ⟨r.incoming b.received, ?_, fun _ hb => overTls_of_mem_incoming hr hb⟩
    simp only [effect]
    rw [arrived_fill, ha]
  rcases delivers_cases h with ⟨-, rfl⟩ | ⟨-, -, rfl⟩ | ⟨a₀, -, -, rfl, -⟩
  · exact hstep _ _ (by simpa using hssl) hi
  · exact hstep ((s.initiate .read).expire .read) _ (by simpa using hssl) hi
  · exact hstep (s.initiate .read) a₀ (by simpa using hssl) hi

/-- Read so many messages one after the other, as long as that goes well. -/
def readMessages : Nat → Routine Outcome
  | 0 => complete none
  | n + 1 => onSuccess asyncRead fun _ => readMessages n

/-- What came behind these bytes came out of TLS. -/
def Through (left : List ReceivedByte) (s : Session) : Prop :=
  s.stream.isSsl = true ∧ ∃ came, s.arrived = left ++ came ∧ ∀ b ∈ came, b.overTls = true

theorem Through.read {left : List ReceivedByte} (h : Through left s)
    (hd : net.Delivers .read s a s') : Through left s' := by
  obtain ⟨hssl, came, hcame, htls⟩ := h
  obtain ⟨next, hnext, htls'⟩ := delivers_read hd hssl
  refine ⟨(delivers_isSsl hd).trans hssl, came ++ next, ?_, ?_⟩
  · rw [hnext, hcame, List.append_assoc]
  · intro b hb
    exact (List.mem_append.1 hb).elim (htls b) (htls' b)

theorem wp_asyncRead {left : List ReceivedByte} (h : Through left s) :
    net.wp (fun _ => True) asyncRead (fun _ => Through left) s := by
  refine wp_asyncTimer ⟨fun _ _ => trivial, ?_⟩ (fun _ h => h) (fun _ _ h => h)
  intro a s' hd
  have harm : Through left s.arm := h
  exact ⟨trivial, trivial, harm.read hd⟩

theorem wp_readMessages {left : List ReceivedByte} (n : Nat) (h : Through left s) :
    net.wp (fun _ => True) (readMessages n) (fun _ => Through left) s := by
  induction n generalizing s with
  | zero => exact ⟨trivial, h⟩
  | succ n ih =>
      refine wp_onSuccess (wp_asyncRead h) ?_ ?_
      · intro a s' _ _ hs'
        exact ih hs'
      · intro o s' _ _ hs'
        exact hs'

/-- A handshake does not touch the buffer itself. -/
theorem delivers_serverHandshake {buffered : Bool}
    (h : net.Delivers (.handshake .server buffered) s a s') :
    a.bytesTransferred ≤ (if buffered then s.buffer.length else 0) ∧ s'.parsed = s.parsed ∧
      s'.buffer = s.buffer := by
  have heff : ∀ (r : Session) (b : Answer),
      (r.effect (.handshake .server buffered) b).parsed = r.parsed ∧
        (r.effect (.handshake .server buffered) b).buffer = r.buffer := by
    intro r b
    simp only [effect]
    split <;> exact ⟨rfl, rfl⟩
  have hle : ∀ (r : Session) (b : Answer), r.allows (.handshake .server buffered) b = true →
      b.bytesTransferred ≤ if buffered then r.buffer.length else 0 := by
    intro r b hb
    simp only [allows, Bool.and_eq_true, decide_eq_true_eq] at hb
    exact hb.2
  rcases delivers_cases h with ⟨ha, rfl⟩ | ⟨-, ha, rfl⟩ | ⟨a₀, ha, -, rfl, rfl⟩
  · exact ⟨by simpa using hle _ _ ha, by simp [heff], by simp [heff]⟩
  · exact ⟨by simpa using hle _ _ ha, by simp [heff], by simp [heff]⟩
  · exact ⟨by simpa [lateAnswer] using hle _ _ ha, by simp [heff], by simp [heff]⟩

/-- What a handshake that reports success has left of the session's buffer. -/
def Taken (s₀ : Session) (o : Outcome) (s : Session) : Prop :=
  ∀ a, o = .completed a → a.ec = none →
    a.bytesTransferred ≤ s₀.buffer.length ∧ s.parsed = s₀.parsed ∧
      s.buffer = s₀.buffer.drop a.bytesTransferred ∧ s.stream.isSsl = true

theorem upgradeIfAsked_arm (s : Session) :
    (upgradeIfAsked s.arm).parsed = s.parsed ∧ (upgradeIfAsked s.arm).buffer = s.buffer := by
  unfold upgradeIfAsked
  split <;> exact ⟨rfl, rfl⟩

/-- A handshake that succeeds takes its bytes off the buffer and leaves the rest
where it is. -/
theorem wp_asyncHandshake (s₀ : Session) :
    net.wp (fun _ => True) asyncHandshake (Taken s₀) s₀ := by
  refine wp_asyncTimer ?_ (fun _ h => h) (fun _ _ h => h)
  obtain ⟨hparsed₀, hbuffer₀⟩ := upgradeIfAsked_arm s₀
  rw [Surroundings.wp_sync]
  generalize upgradeIfAsked s₀.arm = s at hparsed₀ hbuffer₀
  split
  · refine ⟨trivial, ?_⟩
    intro a ha
    cases ha
  · rename_i hplain
    have hssl : s.stream.isSsl = true := by simpa using hplain
    split
    · refine ⟨fun _ _ => trivial, ?_⟩
      intro a s' hd
      obtain ⟨hle, hparsed, hbuffer⟩ := delivers_serverHandshake hd
      refine ⟨trivial, ?_⟩
      dsimp only
      split
      · rename_i ec _
        refine ⟨trivial, ?_⟩
        intro b hb hnone
        obtain rfl : { ec := some ec } = b := by simpa using hb
        cases hnone
      · refine ⟨trivial, ?_⟩
        intro b hb _
        obtain rfl : { bytesTransferred := a.bytesTransferred } = b := by simpa using hb
        refine ⟨?_, hparsed.trans hparsed₀, ?_, (delivers_isSsl hd).trans hssl⟩
        · rw [← hbuffer₀]
          exact hle
        · simp only [consume]
          rw [hbuffer, hbuffer₀]
    · refine ⟨fun _ _ => trivial, ?_⟩
      intro a s' hd
      obtain ⟨-, hparsed, hbuffer⟩ := delivers_serverHandshake hd
      refine ⟨trivial, trivial, ?_⟩
      intro b hb _
      obtain rfl : { ec := a.ec } = b := by simpa using hb
      exact ⟨Nat.zero_le _, hparsed.trans hparsed₀, hbuffer.trans hbuffer₀,
        (delivers_isSsl hd).trans hssl⟩

/-- A handshake, and behind it so many reads; the result is that of the
handshake. -/
def handshakeAndRead (n : Nat) : Routine Outcome :=
  onSuccess asyncHandshake fun a => (readMessages n).bind fun _ => .done (.completed a)

theorem wp_handshakeAndRead (s₀ : Session) (n : Nat) :
    net.wp (fun _ => True) (handshakeAndRead n)
      (fun o s => ∀ a, o = .completed a → a.ec = none →
        a.bytesTransferred ≤ s₀.buffer.length ∧
          Through (s₀.parsed ++ s₀.buffer.drop a.bytesTransferred) s) s₀ := by
  refine wp_onSuccess (wp_asyncHandshake s₀) ?_ ?_
  · intro a s' hnone _ htaken
    obtain ⟨hle, hparsed, hbuffer, hssl⟩ := htaken a rfl hnone
    have hthrough : Through (s₀.parsed ++ s₀.buffer.drop a.bytesTransferred) s' :=
      ⟨hssl, [], by simp [arrived, hparsed, hbuffer], by simp⟩
    refine Surroundings.wp_bind (wp_readMessages n hthrough) ?_
    intro _ s'' _ hs''
    refine ⟨trivial, ?_⟩
    intro b hb _
    obtain rfl : a = b := by simpa using hb
    exact ⟨hle, hs''⟩
  · intro o s' hfail _ _ a ha hnone
    exact absurd hnone (hfail a ha)

section handshake

variable {tr : List (Coroutine Session SessionOp Answer Outcome × ScriptEvent Answer Unit)}
  {c : Coroutine Session SessionOp Answer Outcome} {n : Nat}

/-- A session with nothing but bytes received in the clear makes a handshake and
then reads messages. In every run in which the handshake succeeds, the bytes
that were parsed without having come out of TLS are, in order, the first of
those that the handshake left in the buffer, as far as the parsers got. -/
theorem handshake_cleartext (hclear : ∀ b ∈ s₀.buffer, b.overTls = false)
    (hfresh : s₀.parsed = []) (hr : Run net.step (net.enter s₀ (handshakeAndRead n)) tr c)
    (hf : c.result = some (.completed a)) (hnone : a.ec = none) :
    c.world.parsed.filter (fun b => !b.overTls) =
      (s₀.buffer.drop a.bytesTransferred).take c.world.parsed.length := by
  obtain ⟨-, -, came, hcame, htls⟩ :=
    (Surroundings.run_wp hr (wp_handshakeAndRead s₀ n)).2 _ hf a rfl hnone
  rw [hfresh, List.nil_append] at hcame
  have hparsed : c.world.parsed =
      (s₀.buffer.drop a.bytesTransferred ++ came).take c.world.parsed.length := by
    rw [← hcame, arrived, List.take_left']
    rfl
  generalize c.world.parsed.length = k at hparsed ⊢
  rw [hparsed, List.take_append, List.filter_append]
  have hleft : ((s₀.buffer.drop a.bytesTransferred).take k).filter (fun b => !b.overTls) =
      (s₀.buffer.drop a.bytesTransferred).take k := by
    refine List.filter_eq_self.2 fun b hb => ?_
    simp [hclear b (List.mem_of_mem_drop (List.mem_of_mem_take hb))]
  have hnot : (came.take (k - (s₀.buffer.drop a.bytesTransferred).length)).filter
      (fun b => !b.overTls) = [] := by
    refine List.filter_eq_nil_iff.2 fun b hb => ?_
    simp [htls b (List.mem_of_mem_take hb)]
  rw [hleft, hnot, List.append_nil]

/-- An accepted connection on which four bytes of a TLS client hello were seen. -/
def detected : Session :=
  { opts := { sslCtx := true }, stream := .plain ⟨true⟩,
    buffer := [22, 3, 1, 71].map fun value => { value, overTls := false } }

/-- The handshake takes three of the four bytes: the `G` left is parsed with the
`ET` that comes out of TLS. -/
theorem handshake_cleartext_left :
    ∃ tr c, Run net.step (net.enter detected (handshakeAndRead 1)) tr c ∧
      c.world.parsed.map ReceivedByte.value = ascii "GET" ∧
      c.world.parsed.filter (fun b => !b.overTls) = [{ value := 71, overTls := false }] := by
  have hex : (exec net.step (net.enter detected (handshakeAndRead 1))
      [.complete { bytesTransferred := 3 }, .deliver,
        .complete { received := ascii "ET", consumed := 3 }, .deliver]).map
      (fun r => (r.2.result, r.2.world.parsed.map ReceivedByte.value)) =
      some (some (.completed { bytesTransferred := 3 }), ascii "GET") := by decide
  obtain ⟨⟨tr, c⟩, hex, hc⟩ := Option.map_eq_some_iff.1 hex
  obtain ⟨hc, hvalues⟩ := Prod.mk.inj hc
  have hrun := Run.of_exec hex
  have hlen : c.world.parsed.length = 3 := by
    rw [← List.length_map, hvalues]
    rfl
  refine ⟨tr, c, hrun, hvalues, ?_⟩
  rw [handshake_cleartext (by decide) rfl hrun hc rfl, hlen]
  rfl

end handshake

/-! ### Shutting down -/

/-- What a shutdown does, whatever fails. -/
def shutdownPlan (s : Session) : List SessionOp :=
  (if s.stream.isSsl then [.sslShutdown] else []) ++
    [.shutdown .send, .readSome 1024, .shutdown .receive, .close]

/-- A tear-down goes to its end, whatever fails, and closes the socket. -/
theorem wp_tearDown {plan : List SessionOp}
    (hplan : plan = s.log ++ [.shutdown .send, .readSome 1024, .shutdown .receive, .close]) :
    net.wp (OnPlan plan) tearDown
      (fun o s => (∃ a, o = .completed a) ∧ s.log = plan ∧ s.isOpen = false) s := by
  refine wp_call_plan hplan ?_
  intro a₁ s₁ hd₁ _
  have hplan₁ : plan = s₁.log ++ [.readSome 1024, .shutdown .receive, .close] := by
    rw [hplan, delivers_log hd₁]
    simp
  refine wp_call_plan hplan₁ ?_
  intro a₂ s₂ hd₂ _
  have hplan₂ : plan = s₂.log ++ [.shutdown .receive, .close] := by
    rw [hplan₁, delivers_log hd₂]
    simp
  refine wp_call_plan hplan₂ ?_
  intro a₃ s₃ hd₃ _
  have hplan₃ : plan = s₃.log ++ [.close] := by
    rw [hplan₂, delivers_log hd₃]
    simp
  refine wp_call_plan hplan₃ ?_
  intro a₄ s₄ hd₄ hbegun
  exact ⟨hbegun, ⟨_, rfl⟩, by rw [delivers_log hd₄, hplan₃], delivers_close hd₄⟩

/-- A server's shutdown goes to its end, whatever fails and whether or not the
time runs out, and closes the socket. -/
theorem wp_serverShutdown (s₀ : Session) :
    net.wp (OnPlan (s₀.log ++ shutdownPlan s₀)) serverShutdown
      (fun o s => (∃ a, o = .completed a) ∧ s.log = s₀.log ++ shutdownPlan s₀ ∧
        s.isOpen = false) s₀ := by
  refine wp_asyncTimer ?_ (fun _ h => h) (fun _ _ h => h)
  rw [Surroundings.wp_look]
  split
  · rename_i hssl
    have hssl : s₀.stream.isSsl = true := hssl
    have hplan : s₀.log ++ shutdownPlan s₀ = s₀.arm.log ++ .sslShutdown ::
        [.shutdown .send, .readSome 1024, .shutdown .receive, .close] := by
      simp [shutdownPlan, hssl, arm]
    refine wp_call_plan hplan ?_
    intro a s₁ hd _
    refine wp_tearDown ?_
    rw [hplan, delivers_log hd]
    simp
  · rename_i hplain
    have hplain : s₀.stream.isSsl = false := by simpa [arm] using hplain
    refine wp_tearDown ?_
    simp [shutdownPlan, hplain, arm]

section shutdown

variable {tr : List (Coroutine Session SessionOp Answer Outcome × ScriptEvent Answer Unit)}
  {c : Coroutine Session SessionOp Answer Outcome}

/-- In every run of a server's shutdown, what was called is the beginning of the
plan; the shutdown ends by completing, with all of the plan done and the socket
closed, also where every operation fails and where the time runs out. -/
theorem serverShutdown_plan (hr : Run net.step (net.enter s₀ serverShutdown) tr c) :
    c.world.log <+: s₀.log ++ shutdownPlan s₀ ∧
      ∀ o, c.result = some o →
        (∃ a, o = .completed a) ∧ c.world.log = s₀.log ++ shutdownPlan s₀ ∧
          c.world.isOpen = false :=
  Surroundings.run_wp hr (wp_serverShutdown s₀)

/-- Everything fails, and the time runs out while the peer's last bytes are read. -/
theorem serverShutdown_plan_failing :
    ∃ tr c, Run net.step (net.enter { opts := {}, stream := .ssl ⟨true⟩ {} } serverShutdown) tr c ∧
      c.world.expiredIn = some (.readSome 1024) ∧ c.world.isOpen = false := by
  have hex : (exec net.step (net.enter { opts := {}, stream := .ssl ⟨true⟩ {} } serverShutdown)
      [.complete { ec := some .eof }, .deliver, .complete { ec := some .eof }, .deliver, .disturb (),
        .complete { ec := some .eof }, .deliver, .complete { ec := some .eof }, .deliver,
        .complete { ec := some .eof }, .deliver]).map
      (fun r => (r.2.result, r.2.world.expiredIn)) =
      some (some (.completed { ec := some .eof }), some (.readSome 1024)) := by decide
  obtain ⟨⟨tr, c⟩, hex, hc⟩ := Option.map_eq_some_iff.1 hex
  obtain ⟨hres, hexp⟩ := Prod.mk.inj hc
  have hrun := Run.of_exec hex
  exact ⟨tr, c, hrun, hexp, ((serverShutdown_plan hrun).2 _ hres).2.2⟩

end shutdown

end Foxy.Session
