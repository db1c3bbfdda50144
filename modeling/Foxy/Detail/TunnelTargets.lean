import Foxy.Detail.TunnelRuns
import Foxy.Uri.Forms

/-!
# Foxy.Detail.TunnelTargets

What `tunnel_op` makes of the target of a request: the request it hands to the
relay, and the peer it dials.

The parts of the target are those of the reference split (`Uri.reference`). The
operation works on `uri_parts`, in which an empty part and an absent one are the
same, and takes the default port from the client session and not from the URI.
-/

namespace Foxy.Detail.Tunnel

open Http Lib Uri

variable {clientSsl : Bool} {tr : List (Tunnel × TunnelEvent)} {s s' : Tunnel} {e : TunnelEvent}
  {m : Incoming RequestLine}

/-! ### The request a run is at -/

/-- The request a step read. -/
def requestBy : Tunnel × TunnelEvent → Option (Incoming RequestLine)
  | (_, .header (.ok m)) => some m
  | _ => none

def lastRequest (tr : List (Tunnel × TunnelEvent)) : Option (Incoming RequestLine) :=
  (tr.filterMap requestBy).getLast?

/-- What `onHeader` takes down of the request, whatever it does next. -/
theorem onHeader_parts (clientSsl : Bool) (s : Tunnel) (m : Incoming RequestLine) :
    (s.onHeader clientSsl m).request = m ∧
      (s.onHeader clientSsl m).uriParts = parseUri m.header.start.target ∧
      (s.onHeader clientSsl m).isAbsolute = (parseUri m.header.start.target).isAbsolute ∧
      (s.onHeader clientSsl m).isHttp = (parseUri m.header.start.target).isHttp := by
  unfold onHeader
  dsimp only
  split
  · exact ⟨rfl, rfl, rfl, rfl⟩
  · split <;> exact ⟨rfl, rfl, rfl, rfl⟩

/-- Neither a dial nor a relay follows the write of a `400` or the end of the
loop. -/
theorem afterLoop_point (s : Tunnel) :
    (∀ host port, s.afterLoop.point ≠ .connect host port) ∧ s.afterLoop.point ≠ .relay := by
  unfold afterLoop
  split <;> simp

theorem onReply_point (s : Tunnel) (keepAlive : Bool) (failure : Option Bytes) :
    (∀ host port, (s.onReply keepAlive failure).point ≠ .connect host port) ∧
      (s.onReply keepAlive failure).point ≠ .relay := by
  cases failure with
  | some message => simp [onReply, upcall]
  | none =>
      cases keepAlive with
      | true => simp [onReply, loopHead]
      | false => simpa [onReply] using afterLoop_point s

theorem onConnect_point (s : Tunnel) (failure : Option Bytes) :
    (∀ host port, (s.onConnect failure).point ≠ .connect host port) ∧
      ((s.onConnect failure).point = .relay → failure = none ∧
        (s.isAbsolute && s.isHttp) = true) := by
  cases failure with
  | some message => simp [onConnect]
  | none =>
      unfold onConnect
      dsimp only
      split
      · next h => exact ⟨by simp, fun _ => ⟨rfl, h⟩⟩
      · exact ⟨by simp, by simp⟩

/-- Whom a run dials it has just read about. -/
theorem run_connect {host port : Bytes} (h : Run (step clientSsl) start tr s)
    (hp : s.point = .connect host port) :
    ∃ before s₁ m, tr = before ++ [(s₁, .header (.ok m))] ∧ s = s₁.onHeader clientSsl m := by
  cases h with
  | nil => cases hp
  | snoc _ hs =>
      cases step_inv hs with
      | headerFailed _ => cases hp
      | header _ => exact ⟨_, _, _, rfl, rfl⟩
      | nonPersistent _ => exact absurd hp ((onReply_point _ _ _).1 _ _)
      | connect _ => exact absurd hp ((onConnect_point _ _).1 _ _)
      | unconnected _ => exact absurd hp ((onReply_point _ _ _).1 _ _)
      | malformed _ => exact absurd hp ((onReply_point _ _ _).1 _ _)
      | relayFailed _ => cases hp
      | relayed _ => exact absurd hp ((afterLoop_point _).1 _ _)
      | okFailed _ => cases hp
      | okWritten _ => exact absurd hp ((afterLoop_point _).1 _ _)
      | detected _ => cases hp

/-- What a run relays it has read, and then it has dialled. -/
theorem run_relay (h : Run (step clientSsl) start tr s) (hp : s.point = .relay) :
    ∃ before s₁ m, tr = before ++ [(s₁, .header (.ok m)),
        (s₁.onHeader clientSsl m, .connect none)] ∧
      s = (s₁.onHeader clientSsl m).onConnect none ∧ AbsoluteHttp m.header := by
  cases h with
  | nil => cases hp
  | snoc hrun hs =>
      cases step_inv hs with
      | headerFailed _ => cases hp
      | @header m _ =>
          obtain ⟨-, ⟨hp', -⟩ | ⟨-, hp' | ⟨hp', -⟩⟩⟩ := onHeader_cases clientSsl _ m
          all_goals
            rw [hp] at hp'
            cases hp'
      | nonPersistent _ => exact absurd hp (onReply_point _ _ _).2
      | connect hdial =>
          obtain ⟨rfl, hflags⟩ := (onConnect_point _ _).2 hp
          obtain ⟨before, s₁, m, rfl, rfl⟩ := run_connect hrun hdial
          obtain ⟨-, -, habs, hhttp⟩ := onHeader_parts clientSsl s₁ m
          rw [habs, hhttp, Bool.and_eq_true] at hflags
          exact ⟨before, s₁, m, by simp, rfl, hflags⟩
      | unconnected _ => exact absurd hp (onReply_point _ _ _).2
      | malformed _ => exact absurd hp (onReply_point _ _ _).2
      | relayFailed _ => cases hp
      | relayed _ => exact absurd hp (afterLoop_point _).2
      | okFailed _ => cases hp
      | okWritten _ => exact absurd hp (afterLoop_point _).2
      | detected _ => cases hp

/-! ### The request that is relayed -/

/-- `path [ "?" query ]` of a URI, with its question mark if there is one. -/
def originForm (u : Texts) (marked : Bool) : Bytes :=
  (if u.path = [] then ascii "/" else u.path) ++ if marked then chr '?' :: u.query else []

/-- `host [ ":" port ]` of a URI. -/
def hostField (u : Texts) : Bytes := if u.port = [] then u.host else u.host ++ chr ':' :: u.port

/-- The forwarded request names the resource of the received one. -/
def KeepsResource (received forwarded : Request) : Prop :=
  (forwarded.start.target =
      originForm (reference received.start.target) (received.start.target.contains (chr '?')) ∨
    forwarded.start.target = ascii "*" ∧ received.start.method = .options ∧
      (reference received.start.target).path = [] ∧ chr '?' ∉ received.start.target) ∧
  forwarded.fields.equalRange .host =
    [⟨FieldName.host.text, hostField (reference received.start.target)⟩]

/-- The target has no question mark, or a query behind it and a path or another
method than OPTIONS before it. -/
def PlainTarget (m : Request) : Prop :=
  chr '?' ∈ m.start.target → (reference m.start.target).query ≠ [] ∧
    ((reference m.start.target).path ≠ [] ∨ m.start.method ≠ .options)

theorem originRequest_start (h : Request) (parts : UriParts) :
    (originRequest h parts).start.target = originTarget h.start.method parts := rfl

theorem originRequest_host (h : Request) (parts : UriParts) :
    (originRequest h parts).fields.equalRange .host = [⟨FieldName.host.text, hostname parts⟩] := by
  rw [originRequest, Fields.equalRange_set, if_pos rfl]

theorem hostname_eq (parts : UriParts) : hostname parts = hostField parts.texts := by
  simp only [hostname, hostField, UriParts.texts, List.isEmpty_iff, List.append_assoc]
  rfl

/-- The target that is put together, by the parts that are there. -/
theorem originTarget_eq (method : Verb) (parts : UriParts) :
    originTarget method parts =
      (if parts.path.chars = [] then (if method = .options then ascii "*" else ascii "/")
        else parts.path.chars) ++
        if parts.query.chars = [] then [] else chr '?' :: parts.query.chars := by
  simp only [originTarget, List.isEmpty_iff]
  split <;> simp [ascii]

/-- The two choices of a path differ for an empty one and OPTIONS only. -/
theorem originPath_eq_iff (method : Verb) (path : Bytes) :
    (if path = [] then (if method = .options then ascii "*" else ascii "/") else path) =
        (if path = [] then ascii "/" else path) ↔ path ≠ [] ∨ method ≠ .options := by
  by_cases hpath : path = []
  · by_cases hmethod : method = .options
    · simp [hpath, hmethod, ascii, chr]
    · simp [hpath, hmethod]
  · simp [hpath]

/-- The rewritten target against the origin-form, where without a question mark
no query was captured. -/
theorem originTarget_keeps_iff {method : Verb} {parts : UriParts} {marked : Bool}
    (hquery : marked = false → parts.query.chars = []) :
    (originTarget method parts = originForm parts.texts marked ∨
        originTarget method parts = ascii "*" ∧ method = .options ∧ parts.texts.path = [] ∧
          marked = false) ↔
      (marked = true → parts.texts.query ≠ [] ∧ (parts.texts.path ≠ [] ∨ method ≠ .options)) := by
  have hpath := originPath_eq_iff method parts.path.chars
  rw [originTarget_eq, originForm]
  show (_ ∨ _ ∧ _ ∧ parts.path.chars = [] ∧ _) ↔
    (_ → parts.query.chars ≠ [] ∧ (parts.path.chars ≠ [] ∨ _))
  cases marked with
  | false =>
      simp only [hquery rfl, if_true, Bool.false_eq_true, if_false, List.append_nil, false_implies,
        iff_true, and_true]
      by_cases hplain : parts.path.chars ≠ [] ∨ method ≠ .options
      · exact Or.inl (hpath.2 hplain)
      · obtain ⟨hnil, hopt⟩ := not_or.1 hplain
        rw [not_not] at hnil hopt
        exact Or.inr ⟨by rw [if_pos hnil, if_pos hopt], hopt, hnil⟩
  | true =>
      simp only [Bool.true_eq_false, and_false, or_false, if_true, forall_const]
      by_cases hnil : parts.query.chars = []
      · -- one side ends in a question mark, and is longer by it
        rw [if_pos hnil, List.append_nil, hnil]
        refine ⟨fun heq => absurd (congrArg List.length heq) ?_, fun h => absurd rfl h.1⟩
        rw [List.length_append]
        by_cases hp : parts.path.chars = []
        · simp only [hp, if_true, UriParts.texts]
          split <;> simp [ascii]
        · simp [hp, UriParts.texts]
      · rw [if_neg hnil]
        show _ ++ (chr '?' :: parts.query.chars) = _ ++ (chr '?' :: parts.query.chars) ↔ _
        rw [List.append_left_inj, ← hpath]
        exact ⟨fun heq => ⟨hnil, heq⟩, fun h => h.2⟩

/-- A relayed request names the resource of the one that was read exactly when
the target of the latter is plain. -/
theorem run_resource_iff (h : Run (step clientSsl) start tr s) (hp : s.point = .relay) :
    ∃ m, lastRequest tr = some m ∧ AbsoluteHttp m.header ∧
      (KeepsResource m.header s.request.header ↔ PlainTarget m.header) := by
  obtain ⟨before, s₁, m, rfl, rfl, habs⟩ := run_relay h hp
  refine ⟨m, ?_, habs, ?_⟩
  · rw [lastRequest, List.filterMap_append]
    show (List.filterMap requestBy before ++ [m]).getLast? = some m
    exact List.getLast?_concat
  · obtain ⟨hreq, hparts, hisabs, hishttp⟩ := onHeader_parts clientSsl s₁ m
    have hheader : ((s₁.onHeader clientSsl m).onConnect none).request.header =
        originRequest m.header (parseUri m.header.start.target) := by
      simp only [onConnect, hisabs, hishttp, habs.1, habs.2, Bool.and_self, if_true, hreq, hparts]
    obtain ⟨hscheme, hfragment⟩ := scheme_ne_of_isAbsolute habs.1
    obtain ⟨c, htext, hfills, href⟩ := parseUri_cut hscheme
    have hmark : chr '?' ∈ m.header.start.target ↔ c.query.isSome := by
      rw [← htext]
      exact c.question_mem (hfills.fragment.symm.trans hfragment)
    have hquery : m.header.start.target.contains (chr '?') = false →
        (parseUri m.header.start.target).query.chars = [] := by
      intro hno
      rw [hfills.query]
      cases hq : c.query with
      | none => rfl
      | some w =>
          have hmem := hmark.2 (by rw [hq]; rfl)
          simp [hmem] at hno
    have hkeeps := @originTarget_keeps_iff m.header.start.method _ _ hquery
    rw [KeepsResource, PlainTarget, hheader, originRequest_start, originRequest_host, hostname_eq, href]
    simp only [and_true]
    rw [← List.contains_iff_mem, Bool.not_eq_true]
    exact hkeeps

/-- A request without a body for the given target. -/
def asks (method : Verb) (target : String) : Incoming RequestLine :=
  ⟨⟨⟨method, ascii target⟩, 11, []⟩, []⟩

/-- A query, a port and a path, relayed. -/
theorem run_resource_query :
    ∃ tr s, Run (step true) start tr s ∧ s.point = .relay ∧
      s.request.header.start.target = ascii "/p?q" ∧
      KeepsResource (asks (.other (ascii "GET")) "https://a:8443/p?q").header s.request.header := by
  obtain ⟨tr, s, hex, hp, htarget, hlast⟩ : ∃ tr s,
      exec (step true) start [.header (.ok (asks (.other (ascii "GET")) "https://a:8443/p?q")),
        .connect none] = some (tr, s) ∧ s.point = .relay ∧
      s.request.header.start.target = ascii "/p?q" ∧
      lastRequest tr = some (asks (.other (ascii "GET")) "https://a:8443/p?q") :=
    ⟨_, _, rfl, rfl, rfl, rfl⟩
  have hrun := Run.of_exec hex
  refine ⟨tr, s, hrun, hp, htarget, ?_⟩
  obtain ⟨m, hm, -, hiff⟩ := run_resource_iff hrun hp
  obtain rfl : asks (.other (ascii "GET")) "https://a:8443/p?q" = m := by
    rw [hlast] at hm
    exact Option.some.inj hm
  refine hiff.2 ?_
  rw [PlainTarget]
  decide +kernel

/-- An empty query goes without its question mark, and OPTIONS asks a `*` for a
query. -/
theorem run_resource_lost :
    (∃ tr s, Run (step false) start tr s ∧ s.point = .relay ∧
      lastRequest tr = some (asks (.other (ascii "GET")) "http://a/?") ∧
      s.request.header.start.target = ascii "/" ∧
      ¬KeepsResource (asks (.other (ascii "GET")) "http://a/?").header s.request.header) ∧
    ∃ tr s, Run (step false) start tr s ∧ s.point = .relay ∧
      lastRequest tr = some (asks .options "http://a?q") ∧
      s.request.header.start.target = ascii "*?q" ∧
      ¬KeepsResource (asks .options "http://a?q").header s.request.header := by
  constructor
  · obtain ⟨tr, s, hex, hp, hlast, htarget⟩ : ∃ tr s,
        exec (step false) start [.header (.ok (asks (.other (ascii "GET")) "http://a/?")),
          .connect none] = some (tr, s) ∧ s.point = .relay ∧
        lastRequest tr = some (asks (.other (ascii "GET")) "http://a/?") ∧
        s.request.header.start.target = ascii "/" := ⟨_, _, rfl, rfl, rfl, rfl⟩
    refine ⟨tr, s, Run.of_exec hex, hp, hlast, htarget, fun hkeeps => ?_⟩
    have htarget' := hkeeps.1
    rw [htarget] at htarget'
    revert htarget'
    decide +kernel
  · obtain ⟨tr, s, hex, hp, hlast, htarget⟩ : ∃ tr s,
        exec (step false) start [.header (.ok (asks .options "http://a?q")), .connect none] =
          some (tr, s) ∧ s.point = .relay ∧ lastRequest tr = some (asks .options "http://a?q") ∧
        s.request.header.start.target = ascii "*?q" := ⟨_, _, rfl, rfl, rfl, rfl⟩
    refine ⟨tr, s, Run.of_exec hex, hp, hlast, htarget, fun hkeeps => ?_⟩
    have htarget' := hkeeps.1
    rw [htarget] at htarget'
    revert htarget'
    decide +kernel

/-! ### The peer that is dialled -/

/-- A host without the brackets of an IP-literal. -/
def unbracketed (host : Bytes) : Bytes :=
  if host.head? = some (chr '[') then host.tail.dropLast else host

/-- The parts of a target, which for CONNECT is an authority. -/
def targetTexts (m : Request) : Texts :=
  if m.start.method = .connect then reference (ascii "//" ++ m.start.target)
  else reference m.start.target

/-- A peer to dial for a request: the request has one of the two forms, and the
peer is the one its target names. The default port of a scheme goes by the name
of the scheme. -/
structure RightPeer (m : Request) (host port : Bytes) : Prop where
  form : (m.start.method = .connect ∧ authority m.start.target = some []) ∨
    (m.start.method ≠ .connect ∧ absoluteUri m.start.target = some [] ∧
      ((targetTexts m).scheme = ascii "http" ∨ (targetTexts m).scheme = ascii "https"))
  host_ne : host ≠ []
  host_eq : host = unbracketed (targetTexts m).host
  port_eq : (targetTexts m).port ≠ [] ∧ port = (targetTexts m).port ∨
    (targetTexts m).port = [] ∧ (targetTexts m).scheme ≠ [] ∧ port = (targetTexts m).scheme

/-- What is to become of a request once its header is read: the right peer is
dialled, and no request for an https URI goes to it unencrypted; or a `400` is
written. -/
def Served (clientSsl : Bool) (m : Request) (s : Tunnel) : Prop :=
  match s.point with
  | .connect host port => RightPeer m host port ∧
      ∀ failure, (s.onConnect failure).point = .relay → (targetTexts m).scheme = ascii "https" →
        clientSsl = true
  | .replyNonPersistent => s.response.status = 400
  | .replyMalformed => s.response.status = 400
  | _ => False

/-- The requests for which that holds: a CONNECT that is granted has a port, no
brackets and no mark; an absolute target is not that of a CONNECT, has a host
without brackets and no number sign, and its scheme is that of the client
session, or it is http with a port of its own. -/
structure DialsRight (clientSsl : Bool) (m : Request) : Prop where
  connect : PersistentConnect m →
    chr '?' ∉ m.start.target ∧ chr '#' ∉ m.start.target ∧
      (parseUri m.start.target).host.chars.head? ≠ some (chr '[') ∧
      (parseUri m.start.target).port.chars ≠ []
  absolute : AbsoluteHttp m →
    m.start.method ≠ .connect ∧ chr '#' ∉ m.start.target ∧
      (parseUri m.start.target).host.chars ≠ [] ∧
      (parseUri m.start.target).host.chars.head? ≠ some (chr '[') ∧
      ((parseUri m.start.target).scheme.chars = ascii "https" → clientSsl = true) ∧
      ((parseUri m.start.target).scheme.chars = ascii "http" → clientSsl = true →
        (parseUri m.start.target).port.chars ≠ [])

theorem eq_unbracketed_iff (host : Bytes) :
    host = unbracketed host ↔ host.head? ≠ some (chr '[') := by
  constructor
  · intro heq hhead
    cases host with
    | nil => cases hhead
    | cons c host =>
        rw [unbracketed, if_pos hhead] at heq
        have hlen := congrArg List.length heq
        simp only [List.length_cons, List.tail_cons, List.length_dropLast] at hlen
        omega
  · intro hhead
    rw [unbracketed, if_neg hhead]

theorem notAbsolute_of_isAuthority {p : UriParts} (h : p.isAuthority = true) :
    p.scheme.chars = [] ∧ p.host.chars ≠ [] := by
  simp only [BasicUriParts.isAuthority, Bool.and_eq_true, List.isEmpty_iff, Bool.not_eq_true',
    List.isEmpty_eq_false_iff] at h
  exact ⟨h.1.1.1.1, h.1.1.1.2⟩

/-- An authority is no absolute target. -/
theorem not_absoluteHttp {m : Request} (h : (parseUri m.start.target).isAuthority = true) :
    ¬AbsoluteHttp m :=
  fun habs => (scheme_ne_of_isAbsolute habs.1).1 (notAbsolute_of_isAuthority h).1

/-- The three ways on from a header, each with the requests that take it. -/
theorem onHeader_point (clientSsl : Bool) (s : Tunnel) (m : Incoming RequestLine) :
    ((s.onHeader clientSsl m).point = .connect (parseUri m.header.start.target).host.chars
        (dialPort clientSsl (parseUri m.header.start.target)) ∧
      (PersistentConnect m.header ∨ AbsoluteHttp m.header)) ∨
    (((s.onHeader clientSsl m).point = .replyNonPersistent ∨
        (s.onHeader clientSsl m).point = .replyMalformed) ∧
      (s.onHeader clientSsl m).response.status = 400 ∧
      ¬PersistentConnect m.header ∧ ¬AbsoluteHttp m.header) := by
  unfold onHeader
  dsimp only
  split
  · next h =>
      simp only [Bool.and_eq_true, beq_iff_eq, Bool.not_eq_true'] at h
      refine Or.inr ⟨Or.inl rfl, rfl, ?_, not_absoluteHttp h.1.2⟩
      intro hpersistent
      exact absurd hpersistent.2.2 (by simp [h.2])
  · next hkeep =>
      split
      · next h =>
          simp only [Bool.or_eq_true, Bool.and_eq_true, beq_iff_eq] at h
          refine Or.inl ⟨rfl, ?_⟩
          rcases h with ⟨hconnect, hauth⟩ | habs
          · exact Or.inl ⟨hconnect, hauth, by simpa [hconnect, hauth] using hkeep⟩
          · exact Or.inr habs
      · next h =>
          simp only [Bool.or_eq_true, Bool.and_eq_true, beq_iff_eq, not_or] at h
          exact Or.inr ⟨Or.inr rfl, rfl, fun hp => h.1 ⟨hp.1, hp.2.1⟩, fun ha => h.2 ha⟩

section
variable {m : Request}

theorem dialPort_of_ne {p : UriParts} (h : p.port.chars ≠ []) : dialPort clientSsl p = p.port.chars := by
  rw [dialPort, if_neg (by simpa using h)]

theorem dialPort_of_nil {p : UriParts} (h : p.port.chars = []) :
    dialPort clientSsl p = if clientSsl then ascii "https" else ascii "http" := by
  rw [dialPort, if_pos (by simpa using h)]

/-- Granted CONNECTs to the right peer. -/
theorem rightPeer_connect_iff (h : PersistentConnect m) :
    RightPeer m (parseUri m.start.target).host.chars (dialPort clientSsl (parseUri m.start.target)) ↔
      chr '?' ∉ m.start.target ∧ chr '#' ∉ m.start.target ∧
        (parseUri m.start.target).host.chars.head? ≠ some (chr '[') ∧
        (parseUri m.start.target).port.chars ≠ [] := by
  obtain ⟨hmethod, hauth, -⟩ := h
  obtain ⟨hscheme, hhost⟩ := notAbsolute_of_isAuthority hauth
  have htexts : targetTexts m = (parseUri m.start.target).texts := by
    rw [targetTexts, if_pos hmethod, parseUri_authority_texts hauth]
  constructor
  · intro hright
    have hform : authority m.start.target = some [] := by
      rcases hright.form with ⟨-, hform⟩ | ⟨hne, -⟩
      · exact hform
      · exact absurd hmethod hne
    obtain ⟨hq, hf⟩ := (authority_iff hauth).1 hform
    have hhosteq := hright.host_eq
    rw [htexts] at hhosteq
    refine ⟨hq, hf, (eq_unbracketed_iff _).1 hhosteq, ?_⟩
    -- an authority has no scheme to take a default from
    rcases hright.port_eq with ⟨hport, -⟩ | ⟨-, hne, -⟩
    · rw [htexts] at hport
      exact hport
    · rw [htexts] at hne
      exact absurd hscheme hne
  · rintro ⟨hq, hf, hbracket, hport⟩
    refine ⟨Or.inl ⟨hmethod, (authority_iff hauth).2 ⟨hq, hf⟩⟩, hhost, ?_, Or.inl ?_⟩
    · rw [htexts]
      exact (eq_unbracketed_iff _).2 hbracket
    · rw [htexts]
      exact ⟨hport, dialPort_of_ne hport⟩

/-- A CONNECT whose target has a scheme is dialled without a host, or has not the
form of an authority. -/
theorem not_rightPeer_of_connect {port : Bytes} (h : AbsoluteHttp m) (hmethod : m.start.method = .connect) :
    ¬RightPeer m (parseUri m.start.target).host.chars port := by
  intro hright
  rcases hright.form with ⟨-, hform⟩ | ⟨hne, -⟩
  · obtain ⟨c, htext, hfills, -⟩ := parseUri_cut (scheme_ne_of_isAbsolute h.1).1
    have hslash : chr '/' ∉ m.start.target := fun hmem =>
      authority_within.all hform _ hmem (by simp [ascii])
    have hhost := hright.host_ne
    rw [hfills.host] at hhost
    cases ha : c.authority with
    | none => simp [ha] at hhost
    | some a =>
        refine hslash ?_
        rw [← htext, Cut.text, ha]
        simp [Cut.slashed, ascii]
  · exact absurd hmethod hne

/-- Absolute targets of other methods: the right peer, and encrypted if need be. -/
theorem rightPeer_absolute_iff (h : AbsoluteHttp m) (hmethod : m.start.method ≠ .connect) :
    (RightPeer m (parseUri m.start.target).host.chars
          (dialPort clientSsl (parseUri m.start.target)) ∧
        ((targetTexts m).scheme = ascii "https" → clientSsl = true)) ↔
      chr '#' ∉ m.start.target ∧ (parseUri m.start.target).host.chars ≠ [] ∧
        (parseUri m.start.target).host.chars.head? ≠ some (chr '[') ∧
        ((parseUri m.start.target).scheme.chars = ascii "https" → clientSsl = true) ∧
        ((parseUri m.start.target).scheme.chars = ascii "http" → clientSsl = true →
          (parseUri m.start.target).port.chars ≠ []) := by
  obtain ⟨habs, hhttp⟩ := h
  obtain ⟨hscheme, -⟩ := scheme_ne_of_isAbsolute habs
  obtain ⟨c, -, -, href⟩ := parseUri_cut hscheme
  have htexts : targetTexts m = (parseUri m.start.target).texts := by
    rw [targetTexts, if_neg hmethod, href]
  have hkind : (parseUri m.start.target).scheme.chars = ascii "http" ∨
      (parseUri m.start.target).scheme.chars = ascii "https" := by
    simpa [UriParts.isHttp] using hhttp
  have hhttps : ascii "http" ≠ ascii "https" := by simp [ascii]
  rw [htexts]
  show RightPeer _ _ _ ∧ ((parseUri m.start.target).scheme.chars = _ → _) ↔ _
  constructor
  · rintro ⟨hright, hsecure⟩
    have hform : absoluteUri m.start.target = some [] := by
      rcases hright.form with ⟨heq, -⟩ | ⟨-, hform, -⟩
      · exact absurd heq hmethod
      · exact hform
    have hhosteq := hright.host_eq
    have hporteq := hright.port_eq
    rw [htexts] at hhosteq hporteq
    refine ⟨(absoluteUri_iff habs).1 hform, hright.host_ne, (eq_unbracketed_iff _).1 hhosteq, hsecure,
      ?_⟩
    intro hplain hssl hnil
    rcases hporteq with ⟨hport, -⟩ | ⟨-, -, hport⟩
    · exact hport hnil
    · rw [dialPort_of_nil hnil, if_pos hssl] at hport
      exact hhttps (hplain.symm.trans hport.symm)
  · rintro ⟨hhash, hhost, hbracket, hsecure, hplain⟩
    refine ⟨⟨Or.inr ⟨hmethod, (absoluteUri_iff habs).2 hhash, ?_⟩, hhost, ?_, ?_⟩, hsecure⟩
    · rw [htexts]
      exact hkind
    · rw [htexts]
      exact (eq_unbracketed_iff _).2 hbracket
    · rw [htexts]
      by_cases hport : (parseUri m.start.target).port.chars = []
      · refine Or.inr ⟨hport, hscheme, ?_⟩
        show _ = (parseUri m.start.target).scheme.chars
        rw [dialPort_of_nil hport]
        rcases hkind with hk | hk
        · rw [hk, if_neg fun hssl => hplain hk hssl hport]
        · rw [hk, if_pos (hsecure hk)]
      · exact Or.inl ⟨hport, dialPort_of_ne hport⟩

end

/-- After a header the right thing is done exactly for the requests of
`DialsRight`, and nothing is dialled but what the header just read asks for. -/
theorem run_dials_iff (h : Run (step clientSsl) start tr s) :
    (∀ host port, s.point = .connect host port →
      ∃ before s₁ m, tr = before ++ [(s₁, .header (.ok m))] ∧ s = s₁.onHeader clientSsl m) ∧
    ∀ m s', s.step clientSsl (.header (.ok m)) = some s' →
      (Served clientSsl m.header s' ↔ DialsRight clientSsl m.header) := by
  refine ⟨fun host port hp => run_connect h hp, fun m s' hs => ?_⟩
  cases step_inv hs with
  | header _ =>
      obtain ⟨-, -, hisabs, hishttp⟩ := onHeader_parts clientSsl s m
      rcases onHeader_point clientSsl s m with ⟨hp, hkind⟩ | ⟨hp, hstatus, hconnect, habsolute⟩
      · simp only [Served, hp]
        rcases hkind with hconnect | habsolute
        · have hnot := not_absoluteHttp hconnect.2.1
          have hquiet : ∀ failure,
              ((s.onHeader clientSsl m).onConnect failure).point ≠ .relay := by
            intro failure hrelay
            have hflags := ((onConnect_point _ failure).2 hrelay).2
            rw [hisabs, hishttp, Bool.and_eq_true] at hflags
            exact hnot hflags
          rw [rightPeer_connect_iff hconnect]
          constructor
          · intro hright
            exact ⟨fun _ => hright.1, fun ha => absurd ha hnot⟩
          · intro hright
            exact ⟨hright.connect hconnect, fun failure hrelay => absurd hrelay (hquiet failure)⟩
        · have hnot : ¬PersistentConnect m.header := fun hp => not_absoluteHttp hp.2.1 habsolute
          have hrelay : ((s.onHeader clientSsl m).onConnect none).point = .relay := by
            simp only [onConnect, hisabs, hishttp, habsolute.1, habsolute.2, Bool.and_self, if_true]
          by_cases hmethod : m.header.start.method = .connect
          · constructor
            · intro hright
              exact absurd hright.1 (not_rightPeer_of_connect habsolute hmethod)
            · intro hright
              exact absurd hmethod (hright.absolute habsolute).1
          · have hiff := @rightPeer_absolute_iff clientSsl m.header habsolute hmethod
            constructor
            · intro hright
              exact ⟨fun hp => absurd hp hnot,
                fun _ => ⟨hmethod, hiff.1 ⟨hright.1, hright.2 none hrelay⟩⟩⟩
            · intro hright
              obtain ⟨hpeer, hsecure⟩ := hiff.2 (hright.absolute habsolute).2
              exact ⟨hpeer, fun _ _ => hsecure⟩
      · have hright : DialsRight clientSsl m.header :=
          ⟨fun hp => absurd hp hconnect, fun ha => absurd ha habsolute⟩
        rcases hp with hp | hp
        all_goals
          simp only [Served, hp]
          exact ⟨fun _ => hright, fun _ => hstatus⟩

/-- A plain request and a plain session. -/
theorem run_dials_plain :
    ∃ s', start.step false (.header (.ok (asks (.other (ascii "GET")) "http://a/"))) = some s' ∧
      s'.point = .connect (ascii "a") (ascii "http") ∧
      Served false (asks (.other (ascii "GET")) "http://a/").header s' := by
  obtain ⟨s', hs, hp⟩ : ∃ s',
      start.step false (.header (.ok (asks (.other (ascii "GET")) "http://a/"))) = some s' ∧
        s'.point = .connect (ascii "a") (ascii "http") := ⟨_, rfl, rfl⟩
  refine ⟨s', hs, hp, ((run_dials_iff .nil).2 _ _ hs).2 ⟨fun h => absurd h.1 (by decide), fun _ => ?_⟩⟩
  decide +kernel

/-- An https URI goes to the http port of its host, unencrypted; a URI without a
host is dialled without one; and brackets are dialled with the address. -/
theorem run_dials_wrong :
    (∃ s', start.step false (.header (.ok (asks (.other (ascii "GET")) "https://a/"))) = some s' ∧
      s'.point = .connect (ascii "a") (ascii "http") ∧
      ¬Served false (asks (.other (ascii "GET")) "https://a/").header s') ∧
    (∃ s', start.step false (.header (.ok (asks (.other (ascii "GET")) "http:///p"))) = some s' ∧
      s'.point = .connect [] (ascii "http") ∧
      ¬Served false (asks (.other (ascii "GET")) "http:///p").header s') ∧
    ∃ s', start.step false (.header (.ok (asks (.other (ascii "GET")) "http://[::1]/"))) = some s' ∧
      s'.point = .connect (ascii "[::1]") (ascii "http") ∧
      ¬Served false (asks (.other (ascii "GET")) "http://[::1]/").header s' := by
  have hpoints : ∀ x ∈ [("https://a/", "a"), ("http:///p", ""), ("http://[::1]/", "[::1]")],
      (start.step false (.header (.ok (asks (.other (ascii "GET")) x.1)))).map
        (fun s' => s'.point) = some (.connect (ascii x.2) (ascii "http")) := by decide +kernel
  -- the port, the host and the host again are not those of the target
  have hpeer : ∀ x ∈ [("https://a/", "a"), ("http:///p", ""), ("http://[::1]/", "[::1]")],
      (targetTexts (asks (.other (ascii "GET")) x.1).header).port = [] ∧
        ¬((targetTexts (asks (.other (ascii "GET")) x.1).header).scheme = ascii "http" ∧
          ascii x.2 ≠ [] ∧
          ascii x.2 = unbracketed (targetTexts (asks (.other (ascii "GET")) x.1).header).host) := by
    decide +kernel
  have hwrong : ∀ x ∈ [("https://a/", "a"), ("http:///p", ""), ("http://[::1]/", "[::1]")],
      ∃ s', start.step false (.header (.ok (asks (.other (ascii "GET")) x.1))) = some s' ∧
        s'.point = .connect (ascii x.2) (ascii "http") ∧
        ¬Served false (asks (.other (ascii "GET")) x.1).header s' := by
    intro x hx
    obtain ⟨s', hs, hp⟩ := Option.map_eq_some_iff.1 (hpoints x hx)
    refine ⟨s', hs, hp, fun hserved => ?_⟩
    simp only [Served, hp] at hserved
    obtain ⟨⟨-, hne, hhost, hport⟩, -⟩ := hserved
    obtain ⟨hnil, hother⟩ := hpeer x hx
    rcases hport with ⟨hport, -⟩ | ⟨-, -, hscheme⟩
    · exact hport hnil
    · exact hother ⟨hscheme.symm, hne, hhost⟩
  exact ⟨hwrong ("https://a/", "a") (by simp), hwrong ("http:///p", "") (by simp),
    hwrong ("http://[::1]/", "[::1]") (by simp)⟩

end Foxy.Detail.Tunnel
