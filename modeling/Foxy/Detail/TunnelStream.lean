import Foxy.Detail.TunnelRuns

/-!
# Foxy.Detail.TunnelStream

The tunnel on the byte stream of its client.

Every round of the loop emplaces a new parser, which reads the next header from
the first byte the session has not consumed. A `400` that keeps the connection
is written with the request's body still unread, so the next header is looked
for there. As long as the requests answered in that way have no body, the
headers the tunnel sees are those of the client's requests.
-/

namespace Foxy.Detail

open Http Lib Uri

/-- `async_read_header` into a fresh parser: the header at the front of the
unread bytes, and the bytes behind it. There is none in nothing. -/
structure HeaderReader where
  read : Bytes → Option (Request × Bytes)
  read_nil : read [] = none

/-- A request as the client sends it: its header block and its body. -/
structure WireRequest where
  block : Bytes
  body : Bytes
  message : Request

def WireRequest.bytes (w : WireRequest) : Bytes := w.block ++ w.body

/-- The block reads as the message, and a message that announces no body has
none. -/
structure WireRequest.WellFormed (r : HeaderReader) (w : WireRequest) : Prop where
  reads : ∀ rest, r.read (w.block ++ rest) = some (w.message, rest)
  body_nil : Request.headerOnly w.message = true → w.body = []

/-- The tunnel and what its client has sent that no parser has consumed. -/
structure Streamed where
  tunnel : Tunnel
  unread : Bytes

namespace Streamed

/-- A step of the tunnel. A header is the one at the front of the unread bytes;
a relayed request has its body consumed, so many bytes; nothing else consumes. -/
def step (clientSsl : Bool) (r : HeaderReader) (s : Streamed) (e : TunnelEvent × Nat) :
    Option Streamed :=
  (s.tunnel.step clientSsl e.1).bind fun t =>
    match e.1 with
    | .header (.ok m) =>
      match r.read s.unread with
      | some (message, rest) => if m.header = message then some ⟨t, rest⟩ else none
      | none => none
    | .relay _ _ => some ⟨t, s.unread.drop e.2⟩
    | _ => some ⟨t, s.unread⟩

/-- The header a step parsed. -/
def parsedBy : Streamed × (TunnelEvent × Nat) → Option Request
  | (_, (.header (.ok m), _)) => some m.header
  | _ => none

/-- All headers the tunnel parsed. -/
def parsed (tr : List (Streamed × (TunnelEvent × Nat))) : List Request := tr.filterMap parsedBy

/-- The step answered a request with `400` and goes round for another one. -/
def Continues (s : Tunnel) (e : TunnelEvent) : Prop :=
  e = .write none ∧
    ((s.point = .replyUnconnected ∧ s.request.header.keepAlive = true) ∨
      (s.point = .replyMalformed ∧ s.request.header.parsedKeepAlive = true))

/-- The tunnel holds the request it parsed last. -/
def Holding (s : Tunnel) : Prop :=
  (∃ host port, s.point = .connect host port) ∨ s.point = .replyUnconnected ∨
    s.point = .replyMalformed

/-- What was parsed is the front of the client's requests; the next header is
looked for where the next request begins; and behind the request being worked on
comes its body. -/
def InStep (ws : List WireRequest) (tr : List (Streamed × (TunnelEvent × Nat))) (s : Streamed) :
    Prop :=
  ∃ before after, ws = before ++ after ∧ parsed tr = before.map WireRequest.message ∧
    (s.tunnel.point = .readHeader → s.unread = after.flatMap WireRequest.bytes) ∧
    (Holding s.tunnel → ∃ front w, before = front ++ [w] ∧
      s.tunnel.request.header = w.message ∧
      s.unread = w.body ++ after.flatMap WireRequest.bytes)

variable {clientSsl : Bool} {r : HeaderReader} {ws : List WireRequest}
  {tr : List (Streamed × (TunnelEvent × Nat))} {s s' : Streamed} {e : TunnelEvent × Nat}

/-! ### One step -/

theorem parsed_snoc : parsed (tr ++ [(s, e)]) = parsed tr ++ (parsedBy (s, e)).toList :=
  filterMap_snoc _ _ _

/-- The tunnel steps, and a header comes off the front of the unread bytes. -/
theorem step_eq_some (h : s.step clientSsl r e = some s') :
    s.tunnel.step clientSsl e.1 = some s'.tunnel ∧
      (∀ m, e.1 = .header (.ok m) → r.read s.unread = some (m.header, s'.unread)) ∧
      (parsedBy (s, e) = none → (∀ ec close, e.1 ≠ .relay ec close) → s'.unread = s.unread) := by
  obtain ⟨t, ht, hrest⟩ := Option.bind_eq_some_iff.1 h
  obtain ⟨e, n⟩ := e
  cases e with
  | header result =>
      cases result with
      | error message =>
          obtain rfl := Option.some.inj hrest
          exact ⟨ht, fun m hm => by simp at hm, fun _ _ => rfl⟩
      | ok m =>
          simp only at hrest
          cases hread : r.read s.unread with
          | none => simp [hread] at hrest
          | some p =>
              obtain ⟨message, rest⟩ := p
              simp only [hread] at hrest
              by_cases hm : m.header = message
              · rw [if_pos hm, Option.some.injEq] at hrest
                subst hrest
                refine ⟨ht, ?_, by simp [parsedBy]⟩
                intro m' heq
                obtain rfl : m = m' := by simpa using heq
                rw [hm]
              · rw [if_neg hm] at hrest
                cases hrest
  | connect failure =>
      obtain rfl := Option.some.inj hrest
      exact ⟨ht, by simp, fun _ _ => rfl⟩
  | write failure =>
      obtain rfl := Option.some.inj hrest
      exact ⟨ht, by simp, fun _ _ => rfl⟩
  | relay ec close =>
      obtain rfl := Option.some.inj hrest
      exact ⟨ht, by simp, fun _ h => absurd rfl (h ec close)⟩
  | detect failure isSsl =>
      obtain rfl := Option.some.inj hrest
      exact ⟨ht, by simp, fun _ _ => rfl⟩

/-- A step that parses nothing and ends outside of the loop's top. -/
theorem InStep.snoc (h : InStep ws tr s) (hp : parsedBy (s, e) = none)
    (hread : s'.tunnel.point ≠ .readHeader)
    (hhold : Holding s'.tunnel → Holding s.tunnel ∧ s'.tunnel.request = s.tunnel.request ∧
      s'.unread = s.unread) : InStep ws (tr ++ [(s, e)]) s' := by
  obtain ⟨before, after, hws, hparsed, -, hmid⟩ := h
  refine ⟨before, after, hws, ?_, fun hr => absurd hr hread, ?_⟩
  · rw [parsed_snoc, hp, hparsed]
    exact List.append_nil _
  · intro hh
    obtain ⟨hs, hreq, hun⟩ := hhold hh
    rw [hreq, hun]
    exact hmid hs

/-- The header at the front is that of the next request. -/
theorem inStep_header {m : Incoming RequestLine} {n : Nat} (hws : ∀ w ∈ ws, w.WellFormed r)
    (h : InStep ws tr s) (hp : s.tunnel.point = .readHeader)
    (hread : r.read s.unread = some (m.header, s'.unread))
    (ht : s'.tunnel = s.tunnel.onHeader clientSsl m) :
    InStep ws (tr ++ [(s, (.header (.ok m), n))]) s' := by
  obtain ⟨before, after, rfl, hparsed, htop, -⟩ := h
  rw [htop hp] at hread
  cases after with
  | nil => simp [r.read_nil] at hread
  | cons w after =>
      have hw := hws w (by simp)
      rw [List.flatMap_cons, WireRequest.bytes, List.append_assoc, hw.reads] at hread
      obtain ⟨hmsg, hun⟩ := Prod.mk.inj (Option.some.inj hread)
      obtain ⟨hreq, hpoint⟩ := Tunnel.onHeader_cases clientSsl s.tunnel m
      refine ⟨before ++ [w], after, by simp, ?_, ?_, ?_⟩
      · rw [parsed_snoc, hparsed, List.map_append]
        simp [parsedBy, hmsg]
      · intro htop'
        rw [ht] at htop'
        rcases hpoint with ⟨hp', -⟩ | ⟨-, hp' | ⟨hp', -⟩⟩ <;> rw [hp'] at htop' <;> cases htop'
      · intro _
        exact ⟨before, w, rfl, by rw [ht, hreq, hmsg], hun.symm⟩

/-- Back at the top of the loop behind an empty body. -/
theorem inStep_onReply {keepAlive : Bool} {failure : Option Bytes} {n : Nat}
    (hws : ∀ w ∈ ws, w.WellFormed r) (h : InStep ws tr s) (hhold : Holding s.tunnel)
    (hempty : keepAlive = true → failure = none → Request.headerOnly s.tunnel.request.header = true)
    (hun : s'.unread = s.unread) (ht : s'.tunnel = s.tunnel.onReply keepAlive failure) :
    InStep ws (tr ++ [(s, (.write failure, n))]) s' := by
  cases failure with
  | some message =>
      have hp : s'.tunnel.point = .complete (some (.failure message)) s.tunnel.closeTunnel := by
        rw [ht]
        rfl
      exact h.snoc rfl (by simp [hp]) (by simp [Holding, hp])
  | none =>
      cases keepAlive with
      | false =>
          have hp : s'.tunnel.point = .detect ∨ s'.tunnel.point = .complete none s.tunnel.closeTunnel := by
            rw [ht]
            simp only [Tunnel.onReply, Tunnel.afterLoop, Bool.false_eq_true, if_false]
            split
            · exact Or.inl rfl
            · exact Or.inr rfl
          rcases hp with hp | hp
          · exact h.snoc rfl (by simp [hp]) (by simp [Holding, hp])
          · exact h.snoc rfl (by simp [hp]) (by simp [Holding, hp])
      | true =>
          obtain ⟨before, after, rfl, hparsed, -, hmid⟩ := h
          obtain ⟨front, w, rfl, hreq, hunread⟩ := hmid hhold
          have hbody : w.body = [] := by
            refine (hws w (by simp)).body_nil ?_
            rw [← hreq]
            exact hempty rfl rfl
          have hp : s'.tunnel.point = .readHeader := by rw [ht]; rfl
          refine ⟨front ++ [w], after, rfl, ?_, fun _ => ?_, by simp [Holding, hp]⟩
          · rw [parsed_snoc, hparsed]
            exact List.append_nil _
          · rw [hun, hunread, hbody, List.nil_append]

theorem inStep_step (hws : ∀ w ∈ ws, w.WellFormed r) (h : InStep ws tr s)
    (hempty : Continues s.tunnel e.1 → Request.headerOnly s.tunnel.request.header = true)
    (hs : s.step clientSsl r e = some s') : InStep ws (tr ++ [(s, e)]) s' := by
  obtain ⟨ht, hheader, hkeep⟩ := step_eq_some hs
  obtain ⟨e, n⟩ := e
  have hinv := Tunnel.step_inv ht
  generalize ht' : s'.tunnel = t' at hinv
  cases hinv with
  | headerFailed hp =>
      exact h.snoc rfl (by simp [ht', Tunnel.upcall]) (by simp [ht', Tunnel.upcall, Holding])
  | header hp => exact inStep_header hws h hp (hheader _ rfl) ht'
  | @nonPersistent failure hp =>
      have hp' : s'.tunnel.point ≠ .readHeader ∧ ¬Holding s'.tunnel := by
        rw [ht']
        cases failure with
        | some message => simp [Tunnel.onReply, Tunnel.upcall, Holding]
        | none =>
            simp only [Tunnel.onReply, Tunnel.afterLoop, Bool.false_eq_true, if_false]
            split <;> simp [Holding]
      exact h.snoc rfl hp'.1 fun hh => absurd hh hp'.2
  | @connect host port failure hp =>
      have hun := hkeep rfl (by simp)
      cases failure with
      | some message =>
          exact h.snoc rfl (by simp [ht', Tunnel.onConnect])
            fun _ => ⟨Or.inl ⟨host, port, hp⟩, by rw [ht']; rfl, hun⟩
      | none =>
          have hp' : s'.tunnel.point = .relay ∨ s'.tunnel.point = .replyOk := by
            rw [ht']
            simp only [Tunnel.onConnect]
            split
            · exact Or.inl rfl
            · exact Or.inr rfl
          rcases hp' with hp' | hp'
          · exact h.snoc rfl (by simp [hp']) (by simp [Holding, hp'])
          · exact h.snoc rfl (by simp [hp']) (by simp [Holding, hp'])
  | @unconnected failure hp =>
      refine inStep_onReply hws h (Or.inr (Or.inl hp)) ?_ (hkeep rfl (by simp)) ht'
      intro hk hnone
      subst hnone
      exact hempty ⟨rfl, Or.inl ⟨hp, hk⟩⟩
  | @malformed failure hp =>
      refine inStep_onReply hws h (Or.inr (Or.inr hp)) ?_ (hkeep rfl (by simp)) ht'
      intro hk hnone
      subst hnone
      exact hempty ⟨rfl, Or.inr ⟨hp, hk⟩⟩
  | relayFailed hp =>
      exact h.snoc rfl (by simp [ht', Tunnel.upcall]) (by simp [ht', Tunnel.upcall, Holding])
  | relayed hp =>
      exact h.snoc rfl (by simp [ht', Tunnel.afterLoop]) (by simp [ht', Tunnel.afterLoop, Holding])
  | okFailed hp =>
      exact h.snoc rfl (by simp [ht', Tunnel.upcall]) (by simp [ht', Tunnel.upcall, Holding])
  | okWritten hp =>
      exact h.snoc rfl (by simp [ht', Tunnel.afterLoop]) (by simp [ht', Tunnel.afterLoop, Holding])
  | detected hp => exact h.snoc rfl (by simp [ht']) (by simp [ht', Holding])

theorem run_inStep (hws : ∀ w ∈ ws, w.WellFormed r)
    (h : Run (step clientSsl r) ⟨Tunnel.start, ws.flatMap WireRequest.bytes⟩ tr s)
    (hempty : ∀ x ∈ tr, Continues x.1.tunnel x.2.1 →
      Request.headerOnly x.1.tunnel.request.header = true) : InStep ws tr s := by
  refine h.invariant_of hempty ?_ fun tr s e s' hin hC hs => inStep_step hws hin hC hs
  exact ⟨[], ws, rfl, rfl, fun _ => rfl, by simp [Holding, Tunnel.start, Tunnel.loopHead]⟩

/-- For every stream of well-formed requests and every run of the tunnel in
which each request answered with `400` on a connection that stays has no body:
the headers parsed are those of the requests, in order, each read where its
request begins. -/
theorem run_parsed (hws : ∀ w ∈ ws, w.WellFormed r)
    (h : Run (step clientSsl r) ⟨Tunnel.start, ws.flatMap WireRequest.bytes⟩ tr s)
    (hempty : ∀ x ∈ tr, Continues x.1.tunnel x.2.1 →
      Request.headerOnly x.1.tunnel.request.header = true) :
    parsed tr <+: ws.map WireRequest.message ∧
      ∀ st m n, (st, (TunnelEvent.header (.ok m), n)) ∈ tr →
        ∃ before w after, ws = before ++ w :: after ∧ m.header = w.message ∧
          st.unread = (w :: after).flatMap WireRequest.bytes := by
  refine ⟨?_, ?_⟩
  · obtain ⟨before, after, rfl, hparsed, -, -⟩ := run_inStep hws h hempty
    rw [hparsed, List.map_append]
    exact List.prefix_append _ _
  · intro st m n hmem
    obtain ⟨front, back, s', htr, hrun, hs⟩ := h.split hmem
    have hin := run_inStep hws hrun fun x hx => hempty x (by rw [htr]; exact List.mem_append_left _ hx)
    obtain ⟨before, after, rfl, -, htop, -⟩ := hin
    obtain ⟨ht, hheader, -⟩ := step_eq_some hs
    have hp : st.tunnel.point = .readHeader := by
      have hinv := Tunnel.step_inv ht
      generalize s'.tunnel = t' at hinv
      cases hinv with
      | header hp => exact hp
    have hread := hheader m rfl
    rw [htop hp] at hread
    cases after with
    | nil => simp [r.read_nil] at hread
    | cons w after =>
        have hw := hws w (by simp)
        refine ⟨before, w, after, rfl, ?_, htop hp⟩
        rw [List.flatMap_cons, WireRequest.bytes, List.append_assoc, hw.reads] at hread
        exact (Prod.mk.inj (Option.some.inj hread)).1.symm

/-! ### A plain reader -/

/-- The text before and behind the first `sep`. -/
def cut (sep : Bytes) : Bytes → Option (Bytes × Bytes)
  | [] => none
  | c :: s =>
    if sep.isPrefixOf (c :: s) then some ([], (c :: s).drop sep.length)
    else (cut sep s).map fun p => (c :: p.1, p.2)

/-- The lines of a header block, at most `n + 1` of them. -/
def lines : Nat → Bytes → List Bytes
  | 0, s => [s]
  | n + 1, s =>
    match cut crlf s with
    | none => [s]
    | some (line, rest) => line :: lines n rest

def readMethod (name : Bytes) : Verb :=
  if name = ascii "CONNECT" then .connect
  else if name = ascii "HEAD" then .head
  else if name = ascii "OPTIONS" then .options
  else .other name

def readVersion (text : Bytes) : Option Nat :=
  if text = ascii "HTTP/1.1" then some 11 else if text = ascii "HTTP/1.0" then some 10 else none

/-- `name ":" OWS value`. -/
def readField (line : Bytes) : Option Field :=
  (cut (ascii ":") line).map fun p => ⟨p.1, p.2.dropWhile isOws⟩

/-- A request line and field lines up to an empty line. -/
def readRequest (s : Bytes) : Option (Request × Bytes) :=
  match cut (ascii "\r\n\r\n") s with
  | none => none
  | some (head, rest) =>
    match lines head.length head with
    | [] => none
    | first :: fieldLines =>
      match cut (ascii " ") first with
      | none => none
      | some (method, first) =>
        match cut (ascii " ") first with
        | none => none
        | some (target, version) =>
          match readVersion version, fieldLines.mapM readField with
          | some version, some fields =>
            some (⟨⟨readMethod method, target⟩, version, fields⟩, rest)
          | _, _ => none

def plainReader : HeaderReader := ⟨readRequest, rfl⟩

/-- `GET / HTTP/1.1` without fields. -/
def getWire : WireRequest :=
  ⟨ascii "GET / HTTP/1.1\r\n\r\n", [], ⟨⟨.other (ascii "GET"), ascii "/"⟩, 11, []⟩⟩

theorem getWire_wellFormed : getWire.WellFormed plainReader := ⟨fun _ => rfl, fun _ => rfl⟩

/-- Two malformed requests without a body, both answered and both read whole. -/
theorem run_parsed_twice :
    ∃ tr s, Run (step false plainReader)
        ⟨Tunnel.start, [getWire, getWire].flatMap WireRequest.bytes⟩ tr s ∧
      parsed tr = [getWire.message, getWire.message] ∧
      parsed tr <+: [getWire, getWire].map WireRequest.message := by
  have hex : (exec (step false plainReader)
      ⟨Tunnel.start, [getWire, getWire].flatMap WireRequest.bytes⟩
      [(.header (.ok ⟨getWire.message, []⟩), 0), (.write none, 0),
        (.header (.ok ⟨getWire.message, []⟩), 0), (.write none, 0)]).map
      (fun r => (parsed r.1, r.1.all fun x =>
        x.1.tunnel.point == .readHeader || Request.headerOnly x.1.tunnel.request.header)) =
      some ([getWire.message, getWire.message], true) := by decide +kernel
  obtain ⟨⟨tr, s⟩, hex, hres⟩ := Option.map_eq_some_iff.1 hex
  obtain ⟨hparsed, hall⟩ := Prod.mk.inj hres
  have hrun := Run.of_exec hex
  refine ⟨tr, s, hrun, hparsed, (run_parsed ?_ hrun ?_).1⟩
  · intro w hw
    obtain rfl : w = getWire := by simpa using hw
    exact getWire_wellFormed
  · intro x hx hcont
    have hx := List.all_eq_true.1 hall x hx
    rcases hcont.2 with ⟨hp, -⟩ | ⟨hp, -⟩ <;> simpa [hp] using hx

/-- `POST / HTTP/1.1` with a body that is itself a request. -/
def postWire : WireRequest :=
  ⟨ascii "POST / HTTP/1.1\r\nContent-Length: 26\r\n\r\n",
    ascii "GET http://b/ HTTP/1.1\r\n\r\n",
    ⟨⟨.other (ascii "POST"), ascii "/"⟩, 11, [⟨ascii "Content-Length", ascii "26"⟩]⟩⟩

/-- The request the body reads as. -/
def smuggled : Request := ⟨⟨.other (ascii "GET"), ascii "http://b/"⟩, 11, []⟩

theorem postWire_wellFormed : postWire.WellFormed plainReader := by
  refine ⟨fun _ => rfl, fun h => ?_⟩
  have hbody : Request.headerOnly postWire.message = false := by decide +kernel
  rw [hbody] at h
  cases h

/-- One request is sent; its body is parsed as a second one. -/
theorem run_parsed_smuggled :
    (∀ w ∈ [postWire], w.WellFormed plainReader) ∧
      ∃ tr s, Run (step false plainReader)
          ⟨Tunnel.start, [postWire].flatMap WireRequest.bytes⟩ tr s ∧
        parsed tr = [postWire.message, smuggled] ∧
        ¬parsed tr <+: [postWire].map WireRequest.message := by
  have hex : (exec (step false plainReader)
      ⟨Tunnel.start, [postWire].flatMap WireRequest.bytes⟩
      [(.header (.ok ⟨postWire.message, postWire.body⟩), 0), (.write none, 0),
        (.header (.ok ⟨smuggled, []⟩), 0)]).map (fun r => parsed r.1) =
      some [postWire.message, smuggled] := by decide +kernel
  obtain ⟨⟨tr, s⟩, hex, hparsed⟩ := Option.map_eq_some_iff.1 hex
  refine ⟨?_, tr, s, Run.of_exec hex, hparsed, ?_⟩
  · intro w hw
    obtain rfl : w = postWire := by simpa using hw
    exact postWire_wellFormed
  · intro hprefix
    have hlen := hprefix.length_le
    rw [show parsed tr = [postWire.message, smuggled] from hparsed] at hlen
    simp at hlen

end Streamed

end Foxy.Detail
