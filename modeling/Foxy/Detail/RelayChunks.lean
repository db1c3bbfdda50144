import Foxy.Detail.ChunkedOutput
import Foxy.Detail.RelayShape

/-!
# Foxy.Detail.RelayChunks

What `relay_op` writes behind the headers it forwards.

The parser decodes chunks where any Transfer-Encoding field ends in `chunked`.
The serializer of the forwarded header is chunked where `message::chunked()` says
so of the received one, which looks at the first of these fields. Every run of a
body loop inside a run of the relay is one that was started in that mode.
-/

namespace Foxy.Detail.Relay

open Http Lib BodyLoop

variable {given : Option (Incoming RequestLine)} {tr : List (Relay × RelayEvent)} {s s' s₀ : Relay}
  {buffer : Buffer} {S : Type} {m : Incoming S} {headerOnly : Bool}

/-- `export_connect_fields` takes the Transfer-Encoding fields, `chunked(true)`
brings one back. -/
theorem chunked_rewrite {closeTunnel : Bool} {exported : Fields} {h : Header S} {r : Rewritten S}
    (hr : rewriteHeader closeTunnel exported h = some r) : r.header.chunked = h.chunked := by
  rw [Header.chunked, Fields.get, Fields.find_eq_head?, equalRange_rewrite_te hr]
  cases h.chunked <;> decide +kernel

/-! ### The loops of a run -/

/-- A forwarded header and the source of its body, ready for the loop. -/
structure Opened (m : Incoming S) (headerOnly : Bool) (header : Header S) (source : Source) :
    Prop where
  rest_eq : source.rest = m.payload
  isDone_eq : source.isDone = headerOnly
  chunked_eq : header.chunked = m.header.chunked

/-- `steps` is a run to `loop` of the body loop that is started for the message. -/
def LoopOf (m : Incoming S) (headerOnly : Bool) (steps : List (BodyLoop × BodyEvent))
    (loop : BodyLoop) : Prop :=
  ∃ buffer source, source.rest = m.payload ∧ source.isDone = headerOnly ∧
    Run BodyLoop.step (BodyLoop.start buffer source m.header.chunked) steps loop

theorem Opened.loopOf {header : Header S} {source : Source} (h : Opened m headerOnly header source)
    (buffer : Buffer) : LoopOf m headerOnly [] (BodyLoop.start buffer source header.chunked) := by
  refine ⟨buffer, source, h.rest_eq, h.isDone_eq, ?_⟩
  rw [h.chunked_eq]
  exact .nil

theorem LoopOf.snoc {steps : List (BodyLoop × BodyEvent)} {loop loop' : BodyLoop} {b : BodyEvent}
    (h : LoopOf m headerOnly steps loop) (hs : loop.step b = some loop') :
    LoopOf m headerOnly (steps ++ [(loop, b)]) loop' := by
  obtain ⟨buffer, source, hrest, hdone, hrun⟩ := h
  exact ⟨buffer, source, hrest, hdone, hrun.snoc hs⟩

/-- A message whose parser is not done with the header: what its loop wrote once
it was left is one chunked body exactly in chunked mode, with a last read that
stored something. -/
theorem LoopOf.chunkedBody_iff {steps : List (BodyLoop × BodyEvent)} {loop : BodyLoop}
    (h : LoopOf m false steps loop) (hfin : Finished steps) :
    (ChunkedBody m.payload (wire steps) ↔ m.header.chunked = true ∧ EndsStored steps) ∧
      (AsksForMore steps →
        (ChunkedBody m.payload (wire steps) ↔ m.header.chunked = true ∧ m.payload ≠ [])) := by
  obtain ⟨buffer, source, hrest, hdone, hrun⟩ := h
  rw [← hrest]
  exact wire_chunkedBody_iff hdone hrun (point_of_finished hrun hfin)

/-- What is known of the request's loop. -/
def RequestLoop (given : Option (Incoming RequestLine)) (tr : List (Relay × RelayEvent))
    (s : Relay) : Prop :=
  match s.point with
  | .readRequest => requests given tr = [] ∧ requestSteps tr = []
  | .writeRequest header source => requestSteps tr = [] ∧
      ∀ rq ∈ requests given tr, Opened rq (Request.headerOnly rq.header) header source
  | .requestBody loop => ∀ rq ∈ requests given tr,
      LoopOf rq (Request.headerOnly rq.header) (requestSteps tr) loop
  | _ => ∀ rq ∈ requests given tr, ∃ loop,
      LoopOf rq (Request.headerOnly rq.header) (requestSteps tr) loop

/-- What is known of the response's loop. -/
def ResponseLoop (tr : List (Relay × RelayEvent)) (s : Relay) : Prop :=
  match s.point with
  | .writeResponse header source => responseSteps tr = [] ∧
      ∀ rs ∈ responses tr, Opened rs (Response.headerOnly rs.header) header source
  | .responseBody loop => ∀ rs ∈ responses tr,
      LoopOf rs (Response.headerOnly rs.header) (responseSteps tr) loop
  | .complete _ _ => ∀ rs ∈ responses tr, ∃ loop,
      LoopOf rs (Response.headerOnly rs.header) (responseSteps tr) loop
  | _ => responses tr = [] ∧ responseSteps tr = []

variable {rq : Incoming RequestLine} {rs : Incoming StatusLine} {e : RelayEvent}

theorem requestLoop_onRequest (hq : requests given tr = [rq]) (hqs : requestSteps tr = [])
    (h : s.onRequest rq = some s') : RequestLoop given tr s' := by
  obtain ⟨source, hsource, rfl⟩ := Option.map_eq_some_iff.1 h
  cases hr : rewriteHeader s.closeTunnel s.reqFields rq.header with
  | none =>
      simp only [RequestLoop, upcall, hq, hqs]
      intro m hm
      obtain rfl := List.mem_singleton.1 hm
      exact ⟨_, s.buffer, source, source_eq_some hsource, source_isDone hsource, .nil⟩
  | some r =>
      simp only [RequestLoop, hq]
      refine ⟨hqs, fun m hm => ?_⟩
      obtain rfl := List.mem_singleton.1 hm
      exact ⟨source_eq_some hsource, source_isDone hsource, chunked_rewrite hr⟩

theorem responseLoop_onResponse (hq : responses tr = [rs]) (hqs : responseSteps tr = [])
    (h : s.onResponse rs = some s') : ResponseLoop tr s' := by
  obtain ⟨source, hsource, rfl⟩ := Option.map_eq_some_iff.1 h
  cases hr : rewriteHeader s.closeTunnel s.resFields rs.header with
  | none =>
      simp only [ResponseLoop, upcall, hq, hqs]
      intro m hm
      obtain rfl := List.mem_singleton.1 hm
      exact ⟨_, s.buffer, source, source_eq_some hsource, source_isDone hsource, .nil⟩
  | some r =>
      simp only [ResponseLoop, hq]
      refine ⟨hqs, fun m hm => ?_⟩
      obtain rfl := List.mem_singleton.1 hm
      exact ⟨source_eq_some hsource, source_isDone hsource, chunked_rewrite hr⟩

theorem requests_kept (h : requestBy (s, e) = none) :
    requests given (tr ++ [(s, e)]) = requests given tr := by
  rw [requests_snoc, h]
  exact List.append_nil _

theorem responses_kept (h : responseBy (s, e) = none) : responses (tr ++ [(s, e)]) = responses tr := by
  rw [responses_snoc, h]
  exact List.append_nil _

/-- A step that neither reads a request nor works on its body. -/
theorem requestLooped_snoc (hq : requestBy (s, e) = none) (hs : requestStep (s, e) = none)
    (h : ∀ rq ∈ requests given tr, ∃ loop,
      LoopOf rq (Request.headerOnly rq.header) (requestSteps tr) loop) :
    ∀ rq ∈ requests given (tr ++ [(s, e)]), ∃ loop,
      LoopOf rq (Request.headerOnly rq.header) (requestSteps (tr ++ [(s, e)])) loop := by
  rw [requests_kept hq, requestSteps_snoc, hs]
  simpa using h

/-- A step before the response. -/
theorem unanswered_snoc (hr : responseBy (s, e) = none) (hs : responseStep (s, e) = none)
    (h : responses tr = [] ∧ responseSteps tr = []) :
    responses (tr ++ [(s, e)]) = [] ∧ responseSteps (tr ++ [(s, e)]) = [] := by
  rw [responses_kept hr, responseSteps_snoc, hs, h.1, h.2]
  exact ⟨rfl, rfl⟩

theorem responseLooped_of_unanswered (h : responses tr = [] ∧ responseSteps tr = []) :
    ∀ rs ∈ responses tr, ∃ loop,
      LoopOf rs (Response.headerOnly rs.header) (responseSteps tr) loop := by
  intro rs hrs
  simp [h.1] at hrs

theorem run_requestLoop (hstart : start buffer given = some s₀) (h : Run step s₀ tr s) :
    RequestLoop given tr s := by
  refine h.invariant ?_ ?_
  · cases given with
    | none =>
        simp only [start, Option.some.injEq] at hstart
        subst hstart
        exact ⟨rfl, rfl⟩
    | some m => exact requestLoop_onRequest rfl rfl hstart
  · intro tr s e s' _ ih hs
    cases step_inv hs with
    | requestFailed hp =>
        simp only [RequestLoop, hp] at ih
        simp only [RequestLoop, upcall]
        intro rq hrq
        rw [requests_kept rfl, ih.1] at hrq
        cases hrq
    | @request m _ hp hreq =>
        simp only [RequestLoop, hp] at ih
        refine requestLoop_onRequest (?_ : requests given _ = [m]) ?_ hreq
        · rw [requests_snoc, ih.1]
          rfl
        · rw [requestSteps_snoc, ih.2]
          rfl
    | requestUnwritten hp =>
        simp only [RequestLoop, hp] at ih
        simp only [RequestLoop, upcall]
        refine requestLooped_snoc rfl rfl fun rq hrq => ?_
        rw [ih.1]
        exact ⟨_, (ih.2 rq hrq).loopOf s.buffer⟩
    | @requestWritten header source hp =>
        simp only [RequestLoop, hp] at ih
        simp only [RequestLoop]
        intro rq hrq
        rw [requests_kept rfl] at hrq
        rw [requestSteps_snoc, ih.1]
        exact (ih.2 rq hrq).loopOf s.buffer
    | @requestBody loop loop' b hp hloop =>
        simp only [RequestLoop, hp] at ih
        have hstep : requestStep (s, .requestBody b) = some (loop, b) := by simp [requestStep, hp]
        have hkeep : ∀ rq ∈ requests given (tr ++ [(s, .requestBody b)]),
            LoopOf rq (Request.headerOnly rq.header) (requestSteps (tr ++ [(s, .requestBody b)]))
              loop' := by
          intro rq hrq
          rw [requests_kept rfl] at hrq
          rw [requestSteps_snoc, hstep]
          exact (ih rq hrq).snoc hloop
        cases hp' : loop'.point with
        | reading => simpa only [RequestLoop, afterRequestBody, hp'] using hkeep
        | writing => simpa only [RequestLoop, afterRequestBody, hp'] using hkeep
        | finished =>
            simp only [RequestLoop, afterRequestBody, hp']
            exact fun rq hrq => ⟨loop', hkeep rq hrq⟩
        | upcall ec =>
            simp only [RequestLoop, afterRequestBody, hp', upcall]
            exact fun rq hrq => ⟨loop', hkeep rq hrq⟩
    | responseFailed hp =>
        simp only [RequestLoop, hp] at ih
        simpa only [RequestLoop, upcall] using requestLooped_snoc rfl rfl ih
    | response hp hres =>
        simp only [RequestLoop, hp] at ih
        obtain ⟨-, -, ⟨-, hp'⟩ | ⟨r, source, -, -, -, hp'⟩⟩ := onResponse_eq_some hres
        · simpa only [RequestLoop, hp'] using requestLooped_snoc rfl rfl ih
        · simpa only [RequestLoop, hp'] using requestLooped_snoc rfl rfl ih
    | responseUnwritten hp =>
        simp only [RequestLoop, hp] at ih
        simpa only [RequestLoop, upcall] using requestLooped_snoc rfl rfl ih
    | responseWritten hp =>
        simp only [RequestLoop, hp] at ih
        simpa only [RequestLoop] using requestLooped_snoc rfl rfl ih
    | @responseBody loop loop' b hp hloop =>
        simp only [RequestLoop, hp] at ih
        cases hp' : loop'.point <;>
          simpa only [RequestLoop, afterResponseBody, hp', upcall] using requestLooped_snoc rfl rfl ih

theorem run_responseLoop (hstart : start buffer given = some s₀) (h : Run step s₀ tr s) :
    ResponseLoop tr s := by
  refine h.invariant ?_ ?_
  · cases given with
    | none =>
        simp only [start, Option.some.injEq] at hstart
        subst hstart
        exact ⟨rfl, rfl⟩
    | some m =>
        obtain ⟨-, -, ⟨-, hp'⟩ | ⟨r, source, -, -, -, hp'⟩⟩ := onRequest_eq_some hstart
        · simp only [ResponseLoop, hp']
          exact responseLooped_of_unanswered ⟨rfl, rfl⟩
        · simp only [ResponseLoop, hp']
          exact ⟨rfl, rfl⟩
  · intro tr s e s' _ ih hs
    cases step_inv hs with
    | requestFailed hp =>
        simp only [ResponseLoop, hp] at ih
        simpa only [ResponseLoop, upcall] using responseLooped_of_unanswered (unanswered_snoc rfl rfl ih)
    | request hp hreq =>
        simp only [ResponseLoop, hp] at ih
        obtain ⟨-, -, ⟨-, hp'⟩ | ⟨r, source, -, -, -, hp'⟩⟩ := onRequest_eq_some hreq
        · simpa only [ResponseLoop, hp'] using responseLooped_of_unanswered (unanswered_snoc rfl rfl ih)
        · simpa only [ResponseLoop, hp'] using unanswered_snoc rfl rfl ih
    | requestUnwritten hp =>
        simp only [ResponseLoop, hp] at ih
        simpa only [ResponseLoop, upcall] using responseLooped_of_unanswered (unanswered_snoc rfl rfl ih)
    | requestWritten hp =>
        simp only [ResponseLoop, hp] at ih
        simpa only [ResponseLoop] using unanswered_snoc rfl rfl ih
    | @requestBody loop loop' b hp hloop =>
        simp only [ResponseLoop, hp] at ih
        have hnil := unanswered_snoc (s := s) (e := .requestBody b) rfl rfl ih
        cases hp' : loop'.point with
        | reading => simpa only [ResponseLoop, afterRequestBody, hp'] using hnil
        | writing => simpa only [ResponseLoop, afterRequestBody, hp'] using hnil
        | finished => simpa only [ResponseLoop, afterRequestBody, hp'] using hnil
        | upcall ec => simpa only [ResponseLoop, afterRequestBody, hp', upcall] using responseLooped_of_unanswered hnil
    | responseFailed hp =>
        simp only [ResponseLoop, hp] at ih
        simpa only [ResponseLoop, upcall] using responseLooped_of_unanswered (unanswered_snoc rfl rfl ih)
    | @response m _ hp hres =>
        simp only [ResponseLoop, hp] at ih
        refine responseLoop_onResponse (?_ : responses _ = [m]) ?_ hres
        · rw [responses_snoc, ih.1]
          rfl
        · rw [responseSteps_snoc, ih.2]
          rfl
    | responseUnwritten hp =>
        simp only [ResponseLoop, hp] at ih
        simp only [ResponseLoop, upcall]
        intro rs hrs
        rw [responses_kept rfl] at hrs
        rw [responseSteps_snoc, ih.1]
        exact ⟨_, (ih.2 rs hrs).loopOf s.buffer⟩
    | @responseWritten header source hp =>
        simp only [ResponseLoop, hp] at ih
        simp only [ResponseLoop]
        intro rs hrs
        rw [responses_kept rfl] at hrs
        rw [responseSteps_snoc, ih.1]
        exact (ih.2 rs hrs).loopOf s.buffer
    | @responseBody loop loop' b hp hloop =>
        simp only [ResponseLoop, hp] at ih
        have hstep : responseStep (s, .responseBody b) = some (loop, b) := by simp [responseStep, hp]
        have hkeep : ∀ rs ∈ responses (tr ++ [(s, .responseBody b)]),
            LoopOf rs (Response.headerOnly rs.header) (responseSteps (tr ++ [(s, .responseBody b)]))
              loop' := by
          intro rs hrs
          rw [responses_kept rfl] at hrs
          rw [responseSteps_snoc, hstep]
          exact (ih rs hrs).snoc hloop
        cases hp' : loop'.point with
        | reading => simpa only [ResponseLoop, afterResponseBody, hp'] using hkeep
        | writing => simpa only [ResponseLoop, afterResponseBody, hp'] using hkeep
        | finished =>
            simp only [ResponseLoop, afterResponseBody, hp']
            exact fun rs hrs => ⟨loop', hkeep rs hrs⟩
        | upcall ec =>
            simp only [ResponseLoop, afterResponseBody, hp', upcall]
            exact fun rs hrs => ⟨loop', hkeep rs hrs⟩

/-- Every request of a run has its loop, begun or not. -/
theorem RequestLoop.looped (h : RequestLoop given tr s) :
    ∀ rq ∈ requests given tr, ∃ loop,
      LoopOf rq (Request.headerOnly rq.header) (requestSteps tr) loop := by
  unfold RequestLoop at h
  split at h
  · intro rq hrq
    simp [h.1] at hrq
  · intro rq hrq
    rw [h.1]
    exact ⟨_, (h.2 rq hrq).loopOf s.buffer⟩
  · exact fun rq hrq => ⟨_, h rq hrq⟩
  · exact h

theorem ResponseLoop.looped (h : ResponseLoop tr s) :
    ∀ rs ∈ responses tr, ∃ loop,
      LoopOf rs (Response.headerOnly rs.header) (responseSteps tr) loop := by
  unfold ResponseLoop at h
  split at h
  · intro rs hrs
    rw [h.1]
    exact ⟨_, (h.2 rs hrs).loopOf s.buffer⟩
  · exact fun rs hrs => ⟨_, h rs hrs⟩
  · exact h
  · exact responseLooped_of_unanswered h

/-! ### One chunked body -/

/-- What `relay_op` writes behind the forwarded header of a chunked request or
response, once its body loop is left, is one chunked body of the payload exactly
when `message::chunked()` sees the coding of the received header and the read
that ended the message stored something; with a parser that asks for another
buffer only when there is more to store, exactly when the former holds and the
payload is not empty. -/
theorem run_chunkedOutput_iff (hstart : start buffer given = some s₀) (h : Run step s₀ tr s) :
    (∀ rq ∈ requests given tr, parsedChunked rq.header.fields = true → Finished (requestSteps tr) →
      (ChunkedBody rq.payload (wire (requestSteps tr)) ↔
          rq.header.chunked = true ∧ EndsStored (requestSteps tr)) ∧
        (AsksForMore (requestSteps tr) →
          (ChunkedBody rq.payload (wire (requestSteps tr)) ↔
            rq.header.chunked = true ∧ rq.payload ≠ []))) ∧
      ∀ rs ∈ responses tr, parsedChunked rs.header.fields = true →
        Response.bodiless rs.header = false → Finished (responseSteps tr) →
        (ChunkedBody rs.payload (wire (responseSteps tr)) ↔
            rs.header.chunked = true ∧ EndsStored (responseSteps tr)) ∧
          (AsksForMore (responseSteps tr) →
            (ChunkedBody rs.payload (wire (responseSteps tr)) ↔
              rs.header.chunked = true ∧ rs.payload ≠ [])) := by
  constructor
  · intro rq hrq hparsed hfin
    have hbody : Request.headerOnly rq.header = false := by
      simp [Request.headerOnly, framing, hparsed]
    obtain ⟨loop, hloop⟩ := (run_requestLoop hstart h).looped rq hrq
    rw [hbody] at hloop
    exact hloop.chunkedBody_iff hfin
  · intro rs hrs hparsed hstatus hfin
    have hbody : Response.headerOnly rs.header = false := by
      simp [Response.headerOnly, framing, hparsed, hstatus]
    obtain ⟨loop, hloop⟩ := (run_responseLoop hstart h).looped rs hrs
    rw [hbody] at hloop
    exact hloop.chunkedBody_iff hfin

/-- A chunked request of two bytes and a chunked response of one. -/
theorem run_chunkedOutput_both :
    ∃ s₀ tr s, start zeros none = some s₀ ∧ Run step s₀ tr s ∧ s.point = .complete none false ∧
      ChunkedBody [1, 2] (wire (requestSteps tr)) ∧ ChunkedBody [3] (wire (responseSteps tr)) := by
  obtain ⟨s₀, tr, s, hstart, hex, hp, hrq, hrs, hfin, hlast⟩ : ∃ s₀ tr s,
      start zeros none = some s₀ ∧
      exec step s₀ [
        .readRequest (.ok ⟨post [⟨ascii "Transfer-Encoding", ascii "chunked"⟩], [1, 2]⟩),
        .writeRequest none, .requestBody (.read 2 .done), .requestBody (.write none),
        .readResponse (.ok ⟨⟨⟨200⟩, 11, [⟨ascii "Transfer-Encoding", ascii "chunked"⟩]⟩, [3]⟩),
        .writeResponse none, .responseBody (.read 1 .done), .responseBody (.write none)] =
          some (tr, s) ∧
      s.point = .complete none false ∧
      requests none tr = [⟨post [⟨ascii "Transfer-Encoding", ascii "chunked"⟩], [1, 2]⟩] ∧
      responses tr = [⟨⟨⟨200⟩, 11, [⟨ascii "Transfer-Encoding", ascii "chunked"⟩]⟩, [3]⟩] ∧
      (Finished (requestSteps tr) ∧ Finished (responseSteps tr)) ∧
      EndsStored (requestSteps tr) ∧ EndsStored (responseSteps tr) :=
    ⟨_, _, _, rfl, rfl, rfl, rfl, rfl, by decide +kernel, by decide +kernel⟩
  have hrun := Run.of_exec hex
  obtain ⟨hreq, hres⟩ := run_chunkedOutput_iff hstart hrun
  refine ⟨s₀, tr, s, hstart, hrun, hp, ?_, ?_⟩
  · exact (hreq _ (by rw [hrq]; exact List.mem_singleton_self _) (by decide +kernel) hfin.1).1.2
      ⟨by decide +kernel, hlast.1⟩
  · exact (hres _ (by rw [hrs]; exact List.mem_singleton_self _) (by decide +kernel)
      (by decide +kernel) hfin.2).1.2 ⟨by decide +kernel, hlast.2⟩

/-- An empty chunked payload is written as two last-chunks; and a payload whose
`chunked` stands in a second Transfer-Encoding field goes out as it is. -/
theorem run_chunkedOutput_wrong :
    (∃ s₀ tr s, start zeros none = some s₀ ∧ Run step s₀ tr s ∧
      requests none tr = [⟨post [⟨ascii "Transfer-Encoding", ascii "chunked"⟩], []⟩] ∧
      Finished (requestSteps tr) ∧ wire (requestSteps tr) = ascii "0\r\n\r\n0\r\n\r\n" ∧
      ¬ChunkedBody [] (wire (requestSteps tr))) ∧
    ∃ s₀ tr s, start zeros none = some s₀ ∧ Run step s₀ tr s ∧
      requests none tr = [⟨post [⟨ascii "Transfer-Encoding", ascii "gzip"⟩,
        ⟨ascii "Transfer-Encoding", ascii "chunked"⟩], [1, 2, 3]⟩] ∧
      Finished (requestSteps tr) ∧ wire (requestSteps tr) = [1, 2, 3] ∧
      ¬ChunkedBody [1, 2, 3] (wire (requestSteps tr)) := by
  constructor
  · obtain ⟨s₀, tr, s, hstart, hex, hrq, hfin, hwire⟩ : ∃ s₀ tr s, start zeros none = some s₀ ∧
        exec step s₀ [
          .readRequest (.ok ⟨post [⟨ascii "Transfer-Encoding", ascii "chunked"⟩], []⟩),
          .writeRequest none, .requestBody (.read 0 .done), .requestBody (.write none)] =
            some (tr, s) ∧
        requests none tr = [⟨post [⟨ascii "Transfer-Encoding", ascii "chunked"⟩], []⟩] ∧
        Finished (requestSteps tr) ∧
        wire (requestSteps tr) = [[]].flatMap chunk ++ lastChunk :=
      ⟨_, _, _, rfl, rfl, rfl, by decide +kernel, rfl⟩
    refine ⟨s₀, tr, s, hstart, Run.of_exec hex, hrq, hfin, by rw [hwire]; decide, ?_⟩
    rw [hwire, Http.chunkedBody_iff (show ([[]] : List Bytes).flatten = [] from rfl)]
    simp
  · obtain ⟨s₀, tr, s, hstart, hex, hrq, hfin, hwire⟩ : ∃ s₀ tr s, start zeros none = some s₀ ∧
        exec step s₀ [
          .readRequest (.ok ⟨post [⟨ascii "Transfer-Encoding", ascii "gzip"⟩,
            ⟨ascii "Transfer-Encoding", ascii "chunked"⟩], [1, 2, 3]⟩),
          .writeRequest none, .requestBody (.read 3 .done), .requestBody (.write none)] =
            some (tr, s) ∧
        requests none tr = [⟨post [⟨ascii "Transfer-Encoding", ascii "gzip"⟩,
          ⟨ascii "Transfer-Encoding", ascii "chunked"⟩], [1, 2, 3]⟩] ∧
        Finished (requestSteps tr) ∧ wire (requestSteps tr) = [1, 2, 3] :=
      ⟨_, _, _, rfl, rfl, rfl, by decide +kernel, rfl⟩
    refine ⟨s₀, tr, s, hstart, Run.of_exec hex, hrq, hfin, hwire, ?_⟩
    rw [hwire]
    exact not_chunkedBody_self _

end Foxy.Detail.Relay
