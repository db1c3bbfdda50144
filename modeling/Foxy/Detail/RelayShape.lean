import Foxy.Detail.RelayRuns

/-!
# Foxy.Detail.RelayShape

The response of an exchange: which head the relay forwards, and when it waits
for the body behind one.

The relay reads one head, whatever its status, and lets the response's parser
decide about the body. The parser does not know the method of the request, nor
does the relay tell it (`skip(true)`).
-/

namespace Foxy.Detail.Relay

open Http Lib BodyLoop

variable {given : Option (Incoming RequestLine)} {tr : List (Relay × RelayEvent)} {s s' s₀ : Relay}
  {e : RelayEvent} {buffer : Buffer} {rq : Incoming RequestLine} {rs : Incoming StatusLine}

/-- RFC 7230, 3.3.3: whether a response has a body, given the request it
answers. A Transfer-Encoding overrides the Content-Length. -/
def GivesBody (rq : Request) (rs : Response) : Prop :=
  rq.start.method ≠ .head ∧ rs.bodiless = false ∧
    ¬(rq.start.method = .connect ∧ rs.start.status / 100 = 2) ∧
    (rs.fields.equalRange .transferEncoding ≠ [] ∨ contentLength rs.fields ≠ some 0)

/-- The relay waits for bytes of the response's body. -/
def Awaits (s : Relay) : Prop := ∃ loop, s.point = .responseBody loop ∧ loop.point = .reading

/-- The response head a step wrote. -/
def headBy : Relay × RelayEvent → Option Response
  | (s, .writeResponse none) =>
    match s.point with
    | .writeResponse header _ => some header
    | _ => none
  | _ => none

/-- The response heads that were forwarded. -/
def heads (tr : List (Relay × RelayEvent)) : List Response := tr.filterMap headBy

/-- The parser waits for a body only where the fields or their absence announce one. -/
theorem announced_of_not_headerOnly {h : Response} (hd : h.headerOnly = false) :
    h.bodiless = false ∧
      (h.fields.equalRange .transferEncoding ≠ [] ∨ contentLength h.fields ≠ some 0) := by
  rw [Response.headerOnly, Bool.or_eq_false_iff, beq_eq_false_iff_ne] at hd
  refine ⟨hd.1, ?_⟩
  cases hc : parsedChunked h.fields with
  | true =>
      left
      intro hnil
      simp [parsedChunked, hnil] at hc
  | false =>
      right
      intro hlen
      exact hd.2 (by simp [framing, hc, hlen])

/-! ### The wait -/

theorem heads_snoc : heads (tr ++ [(s, e)]) = heads tr ++ (headBy (s, e)).toList :=
  filterMap_snoc _ _ _

/-- Nothing of the response was forwarded or waited for. -/
def Unanswered (tr : List (Relay × RelayEvent)) : Prop :=
  heads tr = [] ∧ ∀ x ∈ tr, ¬Awaits x.1

/-- The head of `rs` was forwarded. Where its parser was not done with that, the
relay has waited for its body. -/
structure Answering (given : Option (Incoming RequestLine)) (tr : List (Relay × RelayEvent))
    (s : Relay) (rq : Incoming RequestLine) (rs : Incoming StatusLine) : Prop where
  requests_eq : requests given tr = [rq]
  responses_eq : responses tr = [rs]
  clean : Clean (requestSteps tr)
  forwarded : (heads tr).map Header.start = [rs.header.start]
  waited : (∃ st ∈ visited tr s, Awaits st) ↔ Response.headerOnly rs.header = false

/-- What a run has forwarded and waited for by the time it is suspended
somewhere. -/
def Answers (given : Option (Incoming RequestLine)) (tr : List (Relay × RelayEvent)) (s : Relay) :
    Prop :=
  match s.point with
  | .writeResponse header source => Unanswered tr ∧ ∃ rs, responses tr = [rs] ∧
      header.start = rs.header.start ∧ source.isDone = Response.headerOnly rs.header
  | .responseBody loop => ∃ rq rs, Answering given tr s rq rs ∧
      (Response.headerOnly rs.header = true → loop.parser.isDone = true)
  | .complete ec _ =>
      (Unanswered tr ∧ (ec = none → ViaLoop given tr ∨ ¬Clean (requestSteps tr))) ∨
        ∃ rq rs, Answering given tr s rq rs
  | _ => Unanswered tr

theorem not_awaits {p : RelayPoint} (hp : s.point = p) (hne : ∀ loop, p ≠ .responseBody loop) :
    ¬Awaits s := by
  intro h
  obtain ⟨loop, hloop, -⟩ := h
  exact hne loop (hp ▸ hloop)

theorem Unanswered.snoc (h : Unanswered tr) (he : headBy (s, e) = none) (hs : ¬Awaits s) :
    Unanswered (tr ++ [(s, e)]) := by
  refine ⟨by rw [heads_snoc, he, h.1]; rfl, ?_⟩
  intro x hx
  rcases List.mem_append.1 hx with hx | hx
  · exact h.2 x hx
  · rw [List.mem_singleton.1 hx]
    exact hs

/-- A step of the response's body loop, which waits only for a parser that is
not done. -/
theorem Answering.snoc {b : BodyEvent} (h : Answering given tr s rq rs)
    (hs : Awaits s' → Response.headerOnly rs.header = false) :
    Answering given (tr ++ [(s, .responseBody b)]) s' rq rs := by
  refine ⟨?_, ?_, ?_, ?_, ?_⟩
  · rw [requests_snoc, h.requests_eq]
    rfl
  · rw [responses_snoc, h.responses_eq]
    rfl
  · rw [requestSteps_snoc]
    exact (List.append_nil _).symm ▸ h.clean
  · rw [heads_snoc]
    exact (List.append_nil _).symm ▸ h.forwarded
  · rw [visited_snoc]
    constructor
    · intro hwait
      obtain ⟨st, hst, haw⟩ := hwait
      rcases List.mem_append.1 hst with hst | hst
      · exact h.waited.1 ⟨st, hst, haw⟩
      · rw [List.mem_singleton.1 hst] at haw
        exact hs haw
    · intro hd
      obtain ⟨st, hst, haw⟩ := h.waited.2 hd
      exact ⟨st, List.mem_append_left _ hst, haw⟩

theorem answers_onRequest (h : Unanswered tr) (hq : rq ∈ requests given tr)
    (hs : s.onRequest rq = some s') : Answers given tr s' := by
  obtain ⟨-, -, ⟨hvia, hp⟩ | ⟨r, source, -, -, -, hp⟩⟩ := onRequest_eq_some hs
  · simp only [Answers, hp]
    exact Or.inl ⟨h, fun _ => Or.inl (Or.inl ⟨rq, hq, hvia⟩)⟩
  · simp only [Answers, hp]
    exact h

theorem answers_start (hstart : start buffer given = some s₀) : Answers given [] s₀ := by
  have hnil : Unanswered [] := ⟨rfl, by simp⟩
  cases given with
  | none =>
      simp only [start, Option.some.injEq] at hstart
      subst hstart
      exact hnil
  | some m => exact answers_onRequest hnil (by simp [requests]) hstart

theorem source_isDone {S : Type} {m : Incoming S} {headerOnly : Bool} {source : Source}
    (h : m.source headerOnly = some source) : source.isDone = headerOnly := by
  unfold Incoming.source at h
  by_cases hd : headerOnly = true → m.payload = []
  · rw [dif_pos hd, Option.some.injEq] at h
    rw [← h]
  · rw [dif_neg hd] at h
    cases h

/-- The head that goes on has the status that was read, and the parser behind it
is done where its header says so. -/
theorem onResponse_written {header : Response} {source : Source} (h : s.onResponse rs = some s')
    (hp : s'.point = .writeResponse header source) :
    header.start = rs.header.start ∧ source.isDone = Response.headerOnly rs.header := by
  obtain ⟨source', hsource, rfl⟩ := Option.map_eq_some_iff.1 h
  cases hr : rewriteHeader s.closeTunnel s.resFields rs.header with
  | none => simp [hr, upcall] at hp
  | some r =>
      simp only [hr, RelayPoint.writeResponse.injEq] at hp
      obtain ⟨rfl, rfl⟩ := hp
      exact ⟨start_rewrite hr, source_isDone hsource⟩

theorem answers_onResponse (h : Unanswered tr) (hr : responses tr = [rs])
    (hs : s.onResponse rs = some s') : Answers given tr s' := by
  obtain ⟨-, -, ⟨hvia, hp⟩ | ⟨r, source, -, -, -, hp⟩⟩ := onResponse_eq_some hs
  · simp only [Answers, hp]
    exact Or.inl ⟨h, fun _ => Or.inl (Or.inr ⟨rs, by simp [hr], hvia⟩)⟩
  · simp only [Answers, hp]
    exact ⟨h, rs, hr, onResponse_written hs hp⟩

/-- The head is written; the body loop reads at once where the parser is not
done. -/
theorem answers_written {header : Response} {source : Source}
    (hp : s.point = .writeResponse header source) (h : Unanswered tr)
    (hresp : Responded given tr s rq rs) (hhead : header.start = rs.header.start)
    (hd : source.isDone = Response.headerOnly rs.header) :
    Answers given (tr ++ [(s, .writeResponse none)])
      { s with point := .responseBody (BodyLoop.start s.buffer source header.chunked) } := by
  simp only [Answers]
  refine ⟨rq, rs, ⟨?_, ?_, ?_, ?_, ?_⟩, ?_⟩
  · rw [requests_snoc, hresp.requests_eq]
    rfl
  · rw [responses_snoc, hresp.responses_eq]
    rfl
  · rw [requestSteps_snoc]
    exact (List.append_nil _).symm ▸ hresp.relayed.clean
  · simp [heads_snoc, h.1, headBy, hp, hhead]
  · have hbefore : ∀ st ∈ visited tr s, ¬Awaits st := by
      intro st hst
      rcases List.mem_append.1 hst with hst | hst
      · obtain ⟨x, hx, rfl⟩ := List.mem_map.1 hst
        exact h.2 x hx
      · rw [List.mem_singleton.1 hst]
        exact not_awaits hp (by simp)
    rw [visited_snoc]
    constructor
    · intro hwait
      obtain ⟨st, hst, haw⟩ := hwait
      rcases List.mem_append.1 hst with hst | hst
      · exact absurd haw (hbefore st hst)
      · rw [List.mem_singleton.1 hst] at haw
        obtain ⟨loop, hloop, hread⟩ := haw
        simp only [RelayPoint.responseBody.injEq] at hloop
        have hok := start_ok s.buffer source header.chunked
        rw [hloop, Ok, hread] at hok
        rw [← hd, ← hok.1, ← hloop, parser_start]
    · intro hdone
      refine ⟨_, List.mem_append_right _ (List.mem_singleton_self _), _, rfl, ?_⟩
      simp [BodyLoop.start, loopHead, hd, hdone]
  · intro hdone
    rw [parser_start, hd, hdone]

theorem answers_responseBody {loop loop' : BodyLoop} {b : BodyEvent} (hok : loop.Ok)
    (h : Answering given tr s rq rs)
    (hd : Response.headerOnly rs.header = true → loop.parser.isDone = true)
    (hs : loop.step b = some loop') :
    Answers given (tr ++ [(s, .responseBody b)]) (s.afterResponseBody loop') := by
  have hok' := step_ok hok hs
  have hd' : Response.headerOnly rs.header = true → loop'.parser.isDone = true := fun hdone =>
    step_done hok (hd hdone) hs
  cases hp' : loop'.point with
  | reading =>
      simp only [afterResponseBody, hp', Answers]
      refine ⟨rq, rs, h.snoc ?_, hd'⟩
      intro _
      simp only [Ok, hp'] at hok'
      cases hh : Response.headerOnly rs.header with
      | false => rfl
      | true => exact absurd (hd' hh) (by rw [hok'.1]; simp)
  | writing =>
      simp only [afterResponseBody, hp', Answers]
      refine ⟨rq, rs, h.snoc ?_, hd'⟩
      intro haw
      obtain ⟨l, hl, hread⟩ := haw
      simp only [RelayPoint.responseBody.injEq] at hl
      rw [← hl, hp'] at hread
      cases hread
  | finished =>
      simp only [afterResponseBody, hp', Answers]
      exact Or.inr ⟨rq, rs, h.snoc fun haw => absurd haw (not_awaits rfl (by simp))⟩
  | upcall ec =>
      simp only [afterResponseBody, hp', upcall, Answers]
      exact Or.inr ⟨rq, rs, h.snoc fun haw => absurd haw (not_awaits rfl (by simp))⟩

theorem answers_requestBody {loop loop' : BodyLoop} {b : BodyEvent}
    (hp : s.point = .requestBody loop) (h : Unanswered tr)
    (hl : Looping rq.payload (requestSteps tr) loop) (hs : loop.step b = some loop') :
    Answers given (tr ++ [(s, .requestBody b)]) (s.afterRequestBody loop') := by
  have h' : Unanswered (tr ++ [(s, .requestBody b)]) := h.snoc rfl (not_awaits hp (by simp))
  cases hp' : loop'.point with
  | reading =>
      simp only [afterRequestBody, hp', Answers]
      exact h'
  | writing =>
      simp only [afterRequestBody, hp', Answers]
      exact h'
  | finished =>
      simp only [afterRequestBody, hp', Answers]
      exact h'
  | upcall ec =>
      simp only [afterRequestBody, hp', upcall, Answers]
      refine Or.inl ⟨h', ?_⟩
      intro hec
      have herr := (hl.snoc hs).errors
      simp only [Errors, hp', hec] at herr
      have hqs : requestSteps (tr ++ [(s, .requestBody b)]) = requestSteps tr ++ [(loop, b)] := by
        simp [requestSteps_snoc, requestStep, hp]
      exact Or.inr (hqs ▸ herr.1)

theorem run_answers (hstart : start buffer given = some s₀) (h : Run step s₀ tr s) :
    Answers given tr s := by
  refine h.invariant (answers_start hstart) ?_
  intro tr s e s' hrun hans hs
  have hist := run_history hstart hrun
  cases step_inv hs with
  | requestFailed hp =>
      simp only [Answers, hp] at hans
      exact Or.inl ⟨hans.snoc rfl (not_awaits hp (by simp)), by simp⟩
  | @request m _ hp hreq =>
      simp only [Answers, hp] at hans
      exact answers_onRequest (hans.snoc rfl (not_awaits hp (by simp)))
        (by simp [requests_snoc, requestBy]) hreq
  | requestUnwritten hp =>
      simp only [Answers, hp] at hans
      exact Or.inl ⟨hans.snoc rfl (not_awaits hp (by simp)), by simp⟩
  | requestWritten hp =>
      simp only [Answers, hp] at hans
      exact hans.snoc rfl (not_awaits hp (by simp))
  | requestBody hp hloop =>
      simp only [Answers, hp] at hans
      simp only [History, hp] at hist
      obtain ⟨rq, -, -, hl⟩ := hist
      exact answers_requestBody hp hans hl hloop
  | responseFailed hp =>
      simp only [Answers, hp] at hans
      exact Or.inl ⟨hans.snoc rfl (not_awaits hp (by simp)), by simp⟩
  | @response m _ hp hres =>
      simp only [Answers, hp] at hans
      simp only [History, hp] at hist
      obtain ⟨rq, hrq, -, -⟩ := hist
      exact answers_onResponse (hans.snoc rfl (not_awaits hp (by simp)))
        (by rw [responses_snoc, hrq.responses_eq]; rfl) hres
  | responseUnwritten hp =>
      simp only [Answers, hp] at hans
      exact Or.inl ⟨hans.1.snoc rfl (not_awaits hp (by simp)), by simp⟩
  | responseWritten hp =>
      simp only [Answers, hp] at hans
      simp only [History, hp] at hist
      obtain ⟨hun, rs, hr, hhead, hd⟩ := hans
      obtain ⟨rq, rs', hresp, -, -⟩ := hist
      obtain rfl : rs' = rs := by simpa [hr] using hresp.responses_eq.symm
      exact answers_written hp hun hresp hhead hd
  | responseBody hp hloop =>
      simp only [Answers, hp] at hans
      simp only [History, hp] at hist
      obtain ⟨rq, rs, h, hd⟩ := hans
      obtain ⟨_, _, -, -, hl⟩ := hist
      exact answers_responseBody hl.ok h hd hloop

/-! ### One final response of the right shape -/

/-- The relay waits for response body bytes only where the response it read has
a body. -/
def WaitsForBody (given : Option (Incoming RequestLine)) (tr : List (Relay × RelayEvent))
    (s : Relay) : Prop :=
  ∀ st ∈ visited tr s, Awaits st → ∃ rq rs, requests given tr = [rq] ∧ responses tr = [rs] ∧
    GivesBody rq.header rs.header

/-- The head is a final one, and the parser, which does not know the method, need
not: it is done with the header anyway, or the method does not matter. -/
def Shaped (rq : Request) (rs : Response) : Prop :=
  200 ≤ rs.start.status ∧
    (rs.headerOnly = true ∨
      (rq.start.method ≠ .head ∧ ¬(rq.start.method = .connect ∧ rs.start.status / 100 = 2)))

/-- No error of the request's body was passed over, and every head read is
shaped. -/
def ShapedHeads (given : Option (Incoming RequestLine)) (tr : List (Relay × RelayEvent)) : Prop :=
  Clean (requestSteps tr) ∧
    ∀ rq ∈ requests given tr, ∀ rs ∈ responses tr, Shaped rq.header rs.header

/-- What the wait of an answering relay comes to. -/
theorem Answering.waitsForBody_iff (h : Answering given tr s rq rs) :
    WaitsForBody given tr s ↔ (Response.headerOnly rs.header = true ∨
      (rq.header.start.method ≠ .head ∧
        ¬(rq.header.start.method = .connect ∧ rs.header.start.status / 100 = 2))) := by
  cases hd : Response.headerOnly rs.header with
  | true =>
      simp only [true_or, iff_true]
      intro st hst haw
      rw [h.waited.1 ⟨st, hst, haw⟩] at hd
      cases hd
  | false =>
      obtain ⟨st, hst, haw⟩ := h.waited.2 hd
      obtain ⟨hbody, hann⟩ := announced_of_not_headerOnly hd
      simp only [Bool.false_eq_true, false_or]
      constructor
      · intro hwait
        obtain ⟨rq', rs', hq, hr, hgives⟩ := hwait st hst haw
        obtain rfl : rq = rq' := by simpa [hq] using h.requests_eq.symm
        obtain rfl : rs = rs' := by simpa [hr] using h.responses_eq.symm
        exact ⟨hgives.1, hgives.2.2.1⟩
      · intro hmethod st _ _
        exact ⟨rq, rs, h.requests_eq, h.responses_eq, hmethod.1, hbody, hmethod.2, hann⟩

theorem Unanswered.waitsForBody (h : Unanswered tr) (hs : ¬Awaits s) : WaitsForBody given tr s := by
  intro st hst haw
  rcases List.mem_append.1 hst with hst | hst
  · obtain ⟨x, hx, rfl⟩ := List.mem_map.1 hst
    exact absurd haw (h.2 x hx)
  · rw [List.mem_singleton.1 hst] at haw
    exact absurd haw hs

/-- The head that was forwarded is final where the one read was. -/
theorem Answering.final_iff (h : Answering given tr s rq rs) :
    (∃ head ∈ heads tr, 200 ≤ head.start.status) ↔ 200 ≤ rs.header.start.status := by
  have hmem : ∀ head, head ∈ heads tr → head.start = rs.header.start := by
    intro head hhead
    have := List.mem_map_of_mem (f := Header.start) hhead
    rw [h.forwarded] at this
    exact List.mem_singleton.1 this
  constructor
  · intro hfinal
    obtain ⟨head, hhead, hstatus⟩ := hfinal
    rw [← hmem head hhead]
    exact hstatus
  · intro hstatus
    obtain ⟨head, hhead, heq⟩ : ∃ head ∈ heads tr, head.start = rs.header.start := by
      refine List.mem_map.1 ?_
      rw [h.forwarded]
      exact List.mem_singleton_self _
    exact ⟨head, hhead, by rw [heq]; exact hstatus⟩

theorem Answering.shapedHeads_iff (h : Answering given tr s rq rs) :
    ShapedHeads given tr ↔ Shaped rq.header rs.header := by
  simp [ShapedHeads, h.requests_eq, h.responses_eq, h.clean]

/-- In every run over shaped heads the relay waits for response body bytes only
where RFC 7230 gives the response a body; and a run that completes without error
and without a loop has forwarded a final head, and waited so, exactly when its
heads were shaped. -/
theorem run_shape_iff (hstart : start buffer given = some s₀) (h : Run step s₀ tr s) :
    (ShapedHeads given tr → WaitsForBody given tr s) ∧
      ∀ closeTunnel, s.point = .complete none closeTunnel → ¬ViaLoop given tr →
        (((∃ head ∈ heads tr, 200 ≤ head.start.status) ∧ WaitsForBody given tr s) ↔
          ShapedHeads given tr) := by
  have hans := run_answers hstart h
  have hiff : ∀ {rq rs}, Answering given tr s rq rs →
      (((∃ head ∈ heads tr, 200 ≤ head.start.status) ∧ WaitsForBody given tr s) ↔
        ShapedHeads given tr) := by
    intro rq rs ha
    rw [ha.final_iff, ha.waitsForBody_iff, ha.shapedHeads_iff, Shaped]
  constructor
  · intro hshaped
    cases hp : s.point with
    | responseBody loop =>
        simp only [Answers, hp] at hans
        obtain ⟨rq, rs, ha, -⟩ := hans
        exact ((hiff ha).2 hshaped).2
    | complete ec closeTunnel =>
        simp only [Answers, hp] at hans
        rcases hans with ⟨hun, -⟩ | ⟨rq, rs, ha⟩
        · exact hun.waitsForBody (not_awaits hp (by simp))
        · exact ((hiff ha).2 hshaped).2
    | writeResponse header source =>
        simp only [Answers, hp] at hans
        exact hans.1.waitsForBody (not_awaits hp (by simp))
    | readRequest =>
        simp only [Answers, hp] at hans
        exact hans.waitsForBody (not_awaits hp (by simp))
    | writeRequest header source =>
        simp only [Answers, hp] at hans
        exact hans.waitsForBody (not_awaits hp (by simp))
    | requestBody loop =>
        simp only [Answers, hp] at hans
        exact hans.waitsForBody (not_awaits hp (by simp))
    | readResponse =>
        simp only [Answers, hp] at hans
        exact hans.waitsForBody (not_awaits hp (by simp))
  · intro closeTunnel hp hloop
    simp only [Answers, hp] at hans
    rcases hans with ⟨hun, hec⟩ | ⟨rq, rs, ha⟩
    · have hdirty : ¬Clean (requestSteps tr) := (hec trivial).resolve_left hloop
      constructor
      · intro hfinal
        obtain ⟨⟨head, hhead, -⟩, -⟩ := hfinal
        rw [hun.1] at hhead
        cases hhead
      · intro hshaped
        exact absurd hshaped.1 hdirty
    · exact hiff ha

/-- `HEAD / HTTP/1.1` without fields. -/
def headRoot : Incoming RequestLine := ⟨⟨⟨.head, ascii "/"⟩, 11, []⟩, []⟩

/-- A `GET` and a body that ends with its connection, waited for rightly. -/
theorem run_shape_body :
    ∃ s₀ tr s, start zeros none = some s₀ ∧ Run step s₀ tr s ∧ s.point = .complete none false ∧
      (∃ st ∈ visited tr s, Awaits st) ∧
      (∃ head ∈ heads tr, 200 ≤ head.start.status) ∧ WaitsForBody none tr s := by
  obtain ⟨s₀, tr, s, hstart, hex, hp, hrq, hrs, hsteps, st, hst, haw⟩ : ∃ s₀ tr s,
      start zeros none = some s₀ ∧
      exec step s₀ [.readRequest (.ok getRoot), .writeRequest none, .requestBody (.write none),
        .readResponse (.ok (answer 200 [7])), .writeResponse none, .responseBody (.read 1 .done),
        .responseBody (.write none)] = some (tr, s) ∧ s.point = .complete none false ∧
      requests none tr = [getRoot] ∧ responses tr = [answer 200 [7]] ∧
      (requestSteps tr).map (fun x => x.1.ec) = [none] ∧
      ∃ st, (visited tr s)[5]? = some st ∧ Awaits st :=
    ⟨_, _, _, rfl, rfl, rfl, rfl, rfl, rfl, _, rfl, _, rfl, rfl⟩
  have hrun := Run.of_exec hex
  have hvia : ¬ViaLoop none tr := by
    rw [ViaLoop, hrq, hrs]
    decide +kernel
  have hshaped : ShapedHeads none tr := by
    refine ⟨?_, ?_⟩
    · intro st hmem
      have hec : st.ec ∈ (requestSteps tr).map (fun x => x.1.ec) := List.mem_map.2 ⟨_, hmem, rfl⟩
      rw [hsteps] at hec
      exact List.mem_singleton.1 hec
    · intro rq hq rs hr
      rw [hrq, List.mem_singleton] at hq
      rw [hrs, List.mem_singleton] at hr
      subst hq hr
      exact ⟨by decide, Or.inr ⟨by decide, by decide⟩⟩
  exact ⟨s₀, tr, s, hstart, hrun, hp, ⟨st, List.mem_of_getElem? hst, haw⟩,
    ((run_shape_iff hstart hrun).2 _ hp hvia).2 hshaped⟩

/-- A `100` is forwarded as the response, and the relay completes; and for a
response to `HEAD` it waits. -/
theorem run_shape_missed :
    (∃ s₀ tr s, start zeros none = some s₀ ∧ Run step s₀ tr s ∧ s.point = .complete none false ∧
      ¬ViaLoop none tr ∧ ¬∃ head ∈ heads tr, 200 ≤ head.start.status) ∧
    (∃ s₀ tr s, start zeros none = some s₀ ∧ Run step s₀ tr s ∧ requests none tr = [headRoot] ∧
      Awaits s ∧ ¬WaitsForBody none tr s) := by
  constructor
  · obtain ⟨s₀, tr, s, hstart, hex, hp, hrq, hrs, hheads⟩ : ∃ s₀ tr s,
        start zeros none = some s₀ ∧
        exec step s₀ [.readRequest (.ok getRoot), .writeRequest none, .requestBody (.write none),
          .readResponse (.ok (answer 100 [])), .writeResponse none, .responseBody (.write none)] =
            some (tr, s) ∧ s.point = .complete none false ∧ requests none tr = [getRoot] ∧
        responses tr = [answer 100 []] ∧ (heads tr).map (fun h => h.start.status) = [100] :=
      ⟨_, _, _, rfl, rfl, rfl, rfl, rfl, rfl⟩
    refine ⟨s₀, tr, s, hstart, Run.of_exec hex, hp, ?_, ?_⟩
    · rw [ViaLoop, hrq, hrs]
      decide +kernel
    · intro hfinal
      obtain ⟨head, hhead, hstatus⟩ := hfinal
      have hmem := List.mem_map_of_mem (f := fun h : Response => h.start.status) hhead
      rw [hheads, List.mem_singleton] at hmem
      omega
  · obtain ⟨s₀, tr, s, hstart, hex, hrq, haw⟩ : ∃ s₀ tr s, start zeros none = some s₀ ∧
        exec step s₀ [.readRequest (.ok headRoot), .writeRequest none, .requestBody (.write none),
          .readResponse (.ok ⟨⟨⟨200⟩, 11, [⟨ascii "Content-Length", ascii "5"⟩]⟩, []⟩),
          .writeResponse none] = some (tr, s) ∧ requests none tr = [headRoot] ∧ Awaits s :=
      ⟨_, _, _, rfl, rfl, rfl, _, rfl, rfl⟩
    refine ⟨s₀, tr, s, hstart, Run.of_exec hex, hrq, haw, ?_⟩
    intro hwait
    obtain ⟨rq, rs, hq, -, hgives⟩ :=
      hwait s (List.mem_append_right _ (List.mem_singleton_self _)) haw
    obtain rfl : headRoot = rq := by simpa [hrq] using hq
    exact hgives.1 rfl

end Foxy.Detail.Relay
