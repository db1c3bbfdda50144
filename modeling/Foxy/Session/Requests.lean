import Foxy.Session.Client
import Foxy.Session.Server

/-!
# Foxy.Session.Requests

A client session that connects and makes requests one after the other
(`async_connect`, `async_request`): when the first byte of a request is written
on a TLS session, where the bytes of the responses come from, and what is left of
the session when the time runs out.
-/

namespace Foxy.Session

open Lib

/-- So many requests one after the other, as long as that goes well. -/
def requests : Nat → Routine Outcome
  | 0 => complete none
  | n + 1 => onSuccess asyncRequest fun _ => requests n

/-- A connect, and so many requests behind it. -/
def connectAndRequest (host service : Bytes) (n : Nat) : Routine Outcome :=
  onSuccess (asyncConnect host service) fun _ => requests n

/-- What so many requests do, if nothing fails. -/
def exchanges : Nat → List SessionOp
  | 0 => []
  | n + 1 => .write :: .read :: exchanges n

variable {s s' s₀ : Session} {op : SessionOp} {a : Answer} {n : Nat} {host service : Bytes}
  {plan : List SessionOp}

/-! ### Where bytes come from -/

/-- Operations that put nothing into the buffer. -/
def Receiving (op : SessionOp) : Prop := op = .read ∨ op = .readHeader ∨ op = .detectSsl

theorem effect_arrived (s : Session) (h : ¬Receiving op) (a : Answer) :
    (s.effect op a).arrived = s.arrived := by
  unfold effect
  repeat' split
  all_goals first | rfl | exact absurd (by simp [Receiving]) h

theorem pending_arrived (h : net.Pending op s s') : s'.arrived = s.arrived := by
  rcases pending_cases h with rfl | ⟨-, rfl⟩ <;> simp [arrived]

theorem delivers_arrived (hop : ¬Receiving op) (h : net.Delivers op s a s') :
    s'.arrived = s.arrived := by
  have hi : (s.initiate op).arrived = s.arrived := by simp [arrived]
  rcases delivers_cases h with ⟨-, rfl⟩ | ⟨-, -, rfl⟩ | ⟨a₀, -, -, rfl, -⟩
  · rw [effect_arrived _ hop, hi]
  · rw [effect_arrived _ hop]
    exact hi
  · exact (effect_arrived _ hop a₀).trans hi

/-- The bytes that have come so far. -/
def Came (bytes : List ReceivedByte) (s : Session) : Prop := s.arrived = bytes

theorem wp_call_came {bytes : List ReceivedByte} {k : Answer → Routine Outcome}
    {Q : Outcome → Session → Prop} (h : Came bytes s) (hop : ¬Receiving op)
    (hk : ∀ a s', Came bytes s' → net.wp (Came bytes) (k a) Q s') :
    net.wp (Came bytes) (.call op k) Q s := by
  refine ⟨fun s' hp => (pending_arrived hp).trans h, ?_⟩
  intro a s' hd
  have hs' : Came bytes s' := (delivers_arrived hop hd).trans h
  exact ⟨hs', hk a s' hs'⟩

theorem wp_handshake_came {bytes : List ReceivedByte} (h : Came bytes s) :
    net.wp (Came bytes) connectHandshake (fun _ _ => True) s :=
  wp_call_came h (by simp [Receiving]) fun _ _ hs' => ⟨hs', trivial⟩

theorem wp_connectTls_came {bytes : List ReceivedByte} (h : Came bytes s) :
    net.wp (Came bytes) (connectTls host) (fun _ _ => True) s := by
  rw [connectTls, Surroundings.wp_look]
  split
  · refine wp_call_came h (by simp [Receiving]) ?_
    intro a s₁ h₁
    split
    · exact ⟨h₁, trivial⟩
    · refine wp_call_came h₁ (by simp [Receiving]) ?_
      intro a s₂ h₂
      split
      · exact ⟨h₂, trivial⟩
      · exact wp_handshake_came h₂
  · exact wp_handshake_came h

/-- A connect reads nothing. -/
theorem wp_asyncConnect_came (s₀ : Session) (host service : Bytes) :
    net.wp (Came s₀.arrived) (asyncConnect host service) (fun _ _ => True) s₀ := by
  refine wp_asyncTimer ?_ (fun _ h => h) (fun _ _ h => h)
  have harm : Came s₀.arrived s₀.arm := rfl
  refine wp_call_came harm (by simp [Receiving]) ?_
  intro a s₁ h₁
  split
  · exact ⟨h₁, trivial⟩
  · refine wp_call_came h₁ (by simp [Receiving]) ?_
    intro a s₂ h₂
    split
    · exact ⟨h₂, trivial⟩
    · rw [Surroundings.wp_look]
      split
      · exact wp_connectTls_came h₂
      · exact ⟨h₂, trivial⟩

/-! ### Requests on a session that is secured -/

/-- The handshake was made with the names, and all that came has come out of TLS. -/
structure Secured (names : Option Bytes × Option Bytes) (s : Session) : Prop where
  handshake : s.stream.ssl?.bind Ssl.handshake = some names
  arrived : ∀ b ∈ s.arrived, b.overTls = true

variable {names : Option Bytes × Option Bytes}

theorem Secured.isSsl (h : Secured names s) : s.stream.isSsl = true := by
  have hmade := h.handshake
  cases hs : s.stream with
  | plain socket => simp [hs, MultiStream.ssl?] at hmade
  | ssl socket tls => rfl

theorem Secured.pending (h : Secured names s) (hp : net.Pending op s s') : Secured names s' := by
  refine ⟨?_, ?_⟩
  · rcases pending_cases hp with rfl | ⟨-, rfl⟩ <;> simpa using h.handshake
  · rw [pending_arrived hp]
    exact h.arrived

theorem delivers_ssl? (hop : op = .write ∨ op = .read) (h : net.Delivers op s a s') :
    s'.stream.ssl? = s.stream.ssl? := by
  have heff : ∀ (r : Session) (b : Answer), (r.effect op b).stream.ssl? = r.stream.ssl? := by
    intro r b
    rcases hop with rfl | rfl <;> rfl
  rcases delivers_cases h with ⟨-, rfl⟩ | ⟨-, -, rfl⟩ | ⟨a₀, -, -, rfl, -⟩ <;> simp [heff]

theorem Secured.write (h : Secured names s) (hd : net.Delivers .write s a s') : Secured names s' := by
  refine ⟨?_, ?_⟩
  · rw [delivers_ssl? (Or.inl rfl) hd]
    exact h.handshake
  · rw [delivers_arrived (by simp [Receiving]) hd]
    exact h.arrived

theorem Secured.read (h : Secured names s) (hd : net.Delivers .read s a s') : Secured names s' := by
  refine ⟨?_, ?_⟩
  · rw [delivers_ssl? (Or.inr rfl) hd]
    exact h.handshake
  · obtain ⟨came, hcame, htls⟩ := delivers_read hd h.isSsl
    rw [hcame]
    intro b hb
    exact (List.mem_append.1 hb).elim (h.arrived b) (htls b)

theorem wp_asyncRequest_secured (h : Secured names s) :
    net.wp (Secured names) asyncRequest (fun _ _ => True) s := by
  refine wp_asyncTimer ?_ (fun _ h => ⟨h.handshake, h.arrived⟩) (fun _ _ h => h)
  have harm : Secured names s.arm := ⟨h.handshake, h.arrived⟩
  refine ⟨fun _ hp => harm.pending hp, ?_⟩
  intro a s₁ hd₁
  have h₁ := harm.write hd₁
  refine ⟨h₁, ?_⟩
  dsimp only
  split
  · exact ⟨h₁, trivial⟩
  · refine ⟨fun _ hp => h₁.pending hp, ?_⟩
    intro a s₂ hd₂
    have h₂ := h₁.read hd₂
    exact ⟨h₂, h₂, trivial⟩

theorem wp_requests_secured (h : Secured names s) :
    net.wp (Secured names) (requests n) (fun _ _ => True) s := by
  induction n generalizing s with
  | zero => exact ⟨h, trivial⟩
  | succ n ih =>
      refine wp_onSuccess (wp_asyncRequest_secured h) ?_ ?_
      · exact fun _ _ _ hs' _ => ih hs'
      · exact fun _ _ _ _ _ => trivial

/-! ### When the time runs out -/

/-- The time has run out in a write or a read, and that has closed the socket, or
it has not, and the socket is open. -/
def Timely (s : Session) : Prop :=
  (s.expiredIn = none ∨ s.expiredIn = some .write ∨ s.expiredIn = some .read) ∧
    (s.isOpen = true ↔ s.expiredIn = none)

/-- A write that succeeds had an open socket. -/
theorem delivers_write (h : net.Delivers .write s a s') (ha : a.ec = none)
    (hs : s.expiredIn = none) : Timely s' := by
  have hopen : ∀ b : Answer, b.ec = none → (s.initiate .write).allows .write b = true →
      s.isOpen = true := by
    intro b hb hallow
    simpa [allows, hb, initiate_isOpen] using hallow
  rcases delivers_cases h with ⟨hallow, rfl⟩ | ⟨-, hallow, -⟩ | ⟨a₀, hallow, -, rfl, rfl⟩
  · have ho := hopen a ha hallow
    simp [Timely, effect_isOpen, initiate_isOpen, hs, ho]
  · simp [allows, ha] at hallow
  · simp [Timely]

theorem Timely.read (h : Timely s) (hd : net.Delivers .read s a s') : Timely s' := by
  rcases delivers_cases hd with ⟨-, rfl⟩ | ⟨-, -, rfl⟩ | ⟨a₀, -, -, rfl, -⟩
  · simpa [Timely, effect_isOpen, initiate_isOpen] using h
  · simp [Timely, effect_isOpen]
  · simp [Timely]

theorem wp_asyncRequest_plan {rest : List SessionOp} (hplan : plan = s.log ++ .write :: .read :: rest) :
    net.wp (OnPlan plan) asyncRequest (fun o s' => ∀ a, o = .completed a → a.ec = none →
      plan = s'.log ++ rest ∧ Timely s') s := by
  refine wp_asyncTimer ?_ (fun _ h => h) (fun _ _ h => h)
  have harm : plan = s.arm.log ++ .write :: .read :: rest := hplan
  refine wp_call_plan harm ?_
  intro a s₁ hd₁ hbegun₁
  cases hec : a.ec with
  | some ec => exact wp_failed hbegun₁
  | none =>
      have hplan₁ : plan = s₁.log ++ .read :: rest := by
        rw [delivers_log hd₁, harm]
        simp
      have htime₁ : Timely s₁ := delivers_write hd₁ hec rfl
      refine wp_call_plan hplan₁ ?_
      intro a₂ s₂ hd₂ hbegun₂
      refine ⟨hbegun₂, ?_⟩
      intro b _ _
      refine ⟨?_, htime₁.read hd₂⟩
      rw [delivers_log hd₂, hplan₁]
      simp

/-- Requests that all succeed: the time of the last one tells whether the socket
is open. -/
theorem wp_requests_plan (hplan : plan = s.log ++ exchanges n) (hs : 0 < n ∨ Timely s) :
    net.wp (OnPlan plan) (requests n) (fun o s' => ∀ a, o = .completed a → a.ec = none →
      s'.log = plan ∧ Timely s') s := by
  induction n generalizing s with
  | zero =>
      have hlog : plan = s.log := by simpa [exchanges] using hplan
      refine ⟨hlog ▸ List.prefix_refl _, ?_⟩
      intro a _ _
      exact ⟨hlog.symm, hs.resolve_left (Nat.lt_irrefl 0)⟩
  | succ n ih =>
      refine wp_onSuccess (wp_asyncRequest_plan hplan) ?_ ?_
      · intro a s' hnone _ hdone
        obtain ⟨hlog, htime⟩ := hdone a rfl hnone
        exact ih hlog (Or.inr htime)
      · intro o s' hfail _ _ a ha hnone
        exact absurd hnone (hfail a ha)

/-! ### From the connect on -/

theorem wp_connectAndRequest_plan (s₀ : Session) (host service : Bytes) (n : Nat) :
    net.wp (OnPlan (s₀.log ++ connectPlan s₀ host service ++ exchanges n))
      (connectAndRequest host service n) (fun o s => ∀ a, o = .completed a → a.ec = none →
        s.log = s₀.log ++ connectPlan s₀ host service ++ exchanges n ∧ (0 < n → Timely s)) s₀ := by
  have hconn : net.wp (OnPlan (s₀.log ++ connectPlan s₀ host service ++ exchanges n))
      (asyncConnect host service)
      (fun o s => ∀ a, o = .completed a → a.ec = none → Connected s₀ host service s) s₀ :=
    Surroundings.wp_mono (wp_asyncConnect s₀ host service)
      (fun _ h => h.trans (List.prefix_append _ _)) fun _ _ h => h
  refine wp_onSuccess hconn ?_ ?_
  · intro a s hnone hbegun hdone
    have hlog := (hdone a rfl hnone).log
    cases n with
    | zero =>
        refine ⟨hbegun, ?_⟩
        intro b _ _
        exact ⟨by simpa [exchanges] using hlog, fun h => absurd h (Nat.lt_irrefl 0)⟩
    | succ n =>
        have hplan : s₀.log ++ connectPlan s₀ host service ++ exchanges (n + 1) =
            s.log ++ exchanges (n + 1) := by rw [hlog]
        refine Surroundings.wp_mono (wp_requests_plan hplan (Or.inl n.succ_pos)) (fun _ h => h) ?_
        intro o s' hend b hb hnone'
        obtain ⟨hall, htime⟩ := hend b hb hnone'
        exact ⟨hall, fun _ => htime⟩
  · intro o s hfail _ _ a ha hnone
    exact absurd hnone (hfail a ha)

/-- Whatever was called behind the connect's plan was called on a secured session. -/
structure Guarded (s₀ : Session) (host service : Bytes) (names : Option Bytes × Option Bytes)
    (s : Session) : Prop where
  arrived : ∀ b ∈ s.arrived, b.overTls = true
  handshake : (s₀.log ++ connectPlan s₀ host service).length < s.log.length →
    s.stream.ssl?.bind Ssl.handshake = some names

theorem wp_connectAndRequest_guarded {tls : Ssl} (htls : s₀.stream.ssl? = some tls)
    (hno : tls.handshake = none) (hpure : ∀ b ∈ s₀.arrived, b.overTls = true) :
    net.wp (Guarded s₀ host service (connectNames s₀ tls host)) (connectAndRequest host service n)
      (fun _ _ => True) s₀ := by
  have hboth := Surroundings.wp_and (wp_asyncConnect s₀ host service)
    (wp_asyncConnect_came s₀ host service)
  have hconn : net.wp (Guarded s₀ host service (connectNames s₀ tls host))
      (asyncConnect host service)
      (fun o s => ∀ a, o = .completed a → a.ec = none → Connected s₀ host service s) s₀ := by
    refine Surroundings.wp_mono hboth ?_ fun _ _ h => h.1
    intro s h
    obtain ⟨hbegun, hcame⟩ := h
    refine ⟨?_, ?_⟩
    · rw [hcame]
      exact hpure
    · intro hbeyond
      exact absurd hbegun.length_le (by omega)
  refine wp_onSuccess hconn ?_ ?_
  · intro a s hnone hguard hdone
    have hsecured : Secured (connectNames s₀ tls host) s :=
      ⟨(hdone a rfl hnone).names tls htls hno, hguard.arrived⟩
    refine Surroundings.wp_mono (wp_requests_secured hsecured) ?_ fun _ _ h => h
    intro s' h
    exact ⟨h.arrived, fun _ => h.handshake⟩
  · exact fun _ _ _ _ _ => trivial

theorem write_notMem_connectPlan : SessionOp.write ∉ connectPlan s₀ host service := by
  unfold connectPlan handshakePlan
  split
  · split <;> simp
  · simp

section runs

variable {tr : List (Coroutine Session SessionOp Answer Outcome × ScriptEvent Answer Unit)}
  {c : Coroutine Session SessionOp Answer Outcome}

/-- In every run of a connect and the requests behind it on a TLS session, whatever
fails and whenever the time runs out: nothing of a request is written before the
handshake was made, with the host as the name asked for and the name expected if
the peer's certificate is to be verified; and every byte that a response was
parsed from has come out of TLS. -/
theorem connectAndRequest_secured {tls : Ssl} (htls : s₀.stream.ssl? = some tls)
    (hno : tls.handshake = none) (hpure : ∀ b ∈ s₀.arrived, b.overTls = true)
    (hr : Run net.step (net.enter s₀ (connectAndRequest host service n)) tr c) :
    (.write ∈ c.world.log.drop s₀.log.length →
      c.world.stream.ssl?.bind Ssl.handshake = some (connectNames s₀ tls host)) ∧
    ∀ b ∈ c.world.parsed, b.overTls = true := by
  obtain ⟨hplan, -⟩ := Surroundings.run_wp hr (wp_connectAndRequest_plan s₀ host service n)
  obtain ⟨hguard, -⟩ := Surroundings.run_wp hr (wp_connectAndRequest_guarded (n := n) htls hno hpure)
  refine ⟨?_, fun b hb => hguard.arrived b (List.mem_append_left _ hb)⟩
  intro hwrite
  refine hguard.handshake ?_
  by_contra hshort
  -- what was called is still the beginning of the connect's plan, where nothing is written
  obtain ⟨rest, hrest⟩ : c.world.log <+: s₀.log ++ connectPlan s₀ host service :=
    List.prefix_of_prefix_length_le hplan (List.prefix_append _ _) (Nat.le_of_not_lt hshort)
  have hmem : .write ∈ (c.world.log ++ rest).drop s₀.log.length := by
    rw [List.drop_append]
    exact List.mem_append_left _ hwrite
  rw [hrest, List.drop_left] at hmem
  exact write_notMem_connectPlan hmem

/-- One request on a TLS session, with everything going well. -/
theorem connectAndRequest_secured_tls :
    ∃ tr c, Run net.step (net.enter (ofOpts { sslCtx := true })
        (connectAndRequest (ascii "a.example") (ascii "443") 1)) tr c ∧
      c.world.parsed.length = 2 ∧ (∀ b ∈ c.world.parsed, b.overTls = true) ∧
      c.world.stream.ssl?.bind Ssl.handshake =
        some (some (ascii "a.example"), some (ascii "a.example")) := by
  have hex : (exec net.step (net.enter (ofOpts { sslCtx := true })
      (connectAndRequest (ascii "a.example") (ascii "443") 1))
      (succeeds ++ succeeds ++ succeeds ++ succeeds ++ succeeds ++ succeeds ++
        [.complete { received := ascii "OK", consumed := 2 }, .deliver])).map
      (fun r => (r.2.world.parsed.length, decide (SessionOp.write ∈ r.2.world.log))) =
      some (2, true) := by decide
  obtain ⟨⟨tr, c⟩, hex, hc⟩ := Option.map_eq_some_iff.1 hex
  obtain ⟨hlen, hwrite⟩ := Prod.mk.inj hc
  have hrun := Run.of_exec hex
  have htls : (ofOpts { sslCtx := true }).stream.ssl? = some {} := rfl
  obtain ⟨hnames, hpure⟩ := connectAndRequest_secured htls rfl (by decide) hrun
  exact ⟨tr, c, hrun, hlen, hpure, hnames (of_decide_eq_true hwrite)⟩

/-- Where a connect and the requests behind it all report success, everything
planned was called, and the last request ended in time with the socket open, or
after its time with the socket closed. -/
theorem connectAndRequest_timeout (hn : 0 < n)
    (hr : Run net.step (net.enter s₀ (connectAndRequest host service n)) tr c)
    (hf : c.result = some (.completed a)) (hnone : a.ec = none) :
    c.world.log = s₀.log ++ connectPlan s₀ host service ++ exchanges n ∧ Timely c.world := by
  obtain ⟨hlog, htime⟩ :=
    (Surroundings.run_wp hr (wp_connectAndRequest_plan s₀ host service n)).2 _ hf a rfl hnone
  exact ⟨hlog, htime hn⟩

/-- The time runs out when the response was read and its handler waits: success is
reported, on a session whose socket is closed. -/
theorem connectAndRequest_timeout_late :
    ∃ tr c, Run net.step (net.enter (ofOpts {})
        (connectAndRequest (ascii "a.example") (ascii "80") 1)) tr c ∧
      c.result = some (.completed {}) ∧ c.world.isOpen = false := by
  have hex : (exec net.step (net.enter (ofOpts {})
      (connectAndRequest (ascii "a.example") (ascii "80") 1))
      (succeeds ++ succeeds ++ succeeds ++
        [.complete { received := ascii "OK", consumed := 2 }, .disturb (), .deliver])).map
      (fun r => (r.2.result, r.2.world.expiredIn)) =
      some (some (.completed {}), some .read) := by decide
  obtain ⟨⟨tr, c⟩, hex, hc⟩ := Option.map_eq_some_iff.1 hex
  obtain ⟨hres, hexp⟩ := Prod.mk.inj hc
  have hrun := Run.of_exec hex
  obtain ⟨-, -, hopen⟩ := connectAndRequest_timeout (by decide) hrun hres rfl
  refine ⟨tr, c, hrun, hres, ?_⟩
  rw [← Bool.not_eq_true, hopen, hexp]
  simp

end runs

end Foxy.Session
