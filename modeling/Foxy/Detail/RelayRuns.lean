import Foxy.Detail.Relay

/-!
# Foxy.Detail.RelayRuns

Whole runs of `relay_op`: what was read and written when it completes, and with
which `close_tunnel`.

The body loops are runs of `BodyLoop` inside a run of the relay (`requestSteps`,
`responseSteps`), so what is known of every run of the loop applies to them.
-/

namespace Foxy.Detail.Relay

open Http Lib BodyLoop

variable {given : Option (Incoming RequestLine)} {tr : List (Relay × RelayEvent)} {s s' s₀ : Relay}
  {e : RelayEvent} {buffer : Buffer} {rq : Incoming RequestLine} {rs : Incoming StatusLine}

/-! ### What a run did -/

/-- The request a step read. -/
def requestBy : Relay × RelayEvent → Option (Incoming RequestLine)
  | (_, .readRequest (.ok m)) => some m
  | _ => none

/-- The response a step read. -/
def responseBy : Relay × RelayEvent → Option (Incoming StatusLine)
  | (_, .readResponse (.ok m)) => some m
  | _ => none

/-- The step of the request's body loop that a step is. -/
def requestStep : Relay × RelayEvent → Option (BodyLoop × BodyEvent)
  | (s, .requestBody b) =>
    match s.point with
    | .requestBody loop => some (loop, b)
    | _ => none
  | _ => none

/-- The step of the response's body loop that a step is. -/
def responseStep : Relay × RelayEvent → Option (BodyLoop × BodyEvent)
  | (s, .responseBody b) =>
    match s.point with
    | .responseBody loop => some (loop, b)
    | _ => none
  | _ => none

/-- The states of a run, the last one included. -/
def visited (tr : List (Relay × RelayEvent)) (s : Relay) : List Relay := tr.map Prod.fst ++ [s]

/-- The requests the operation got, the given one included. -/
def requests (given : Option (Incoming RequestLine)) (tr : List (Relay × RelayEvent)) :
    List (Incoming RequestLine) := given.toList ++ tr.filterMap requestBy

def responses (tr : List (Relay × RelayEvent)) : List (Incoming StatusLine) :=
  tr.filterMap responseBy

def requestSteps (tr : List (Relay × RelayEvent)) : List (BodyLoop × BodyEvent) :=
  tr.filterMap requestStep

def responseSteps (tr : List (Relay × RelayEvent)) : List (BodyLoop × BodyEvent) :=
  tr.filterMap responseStep

/-- The steps of both body loops. -/
def bodySteps (tr : List (Relay × RelayEvent)) : List (BodyLoop × BodyEvent) :=
  requestSteps tr ++ responseSteps tr

/-- A header that was read has been here before. -/
def ViaLoop (given : Option (Incoming RequestLine)) (tr : List (Relay × RelayEvent)) : Prop :=
  (∃ m ∈ requests given tr, hasFoxyVia m.header.fields = true) ∨
    ∃ m ∈ responses tr, hasFoxyVia m.header.fields = true

/-- A finished exchange: one request and one response, both headers written and
both bodies relayed to their ends. -/
structure Exchanged (given : Option (Incoming RequestLine)) (tr : List (Relay × RelayEvent))
    (rq : Incoming RequestLine) (rs : Incoming StatusLine) : Prop where
  requests_eq : requests given tr = [rq]
  responses_eq : responses tr = [rs]
  requestVia : hasFoxyVia rq.header.fields = false
  responseVia : hasFoxyVia rs.header.fields = false
  requestWritten : ∃ st, (st, RelayEvent.writeRequest none) ∈ tr
  responseWritten : ∃ st, (st, RelayEvent.writeResponse none) ∈ tr
  requestBody : Relayed rq.payload (requestSteps tr)
  responseBody : Relayed rs.payload (responseSteps tr)

/-- How a run can have ended. -/
inductive Outcome (given : Option (Incoming RequestLine)) (tr : List (Relay × RelayEvent)) :
    Option Error → Bool → Prop
  | failed {error : Error} : Clean (bodySteps tr) → Outcome given tr (some error) true
  | looped : ViaLoop given tr → Clean (bodySteps tr) → NoFailure (bodySteps tr) →
      Outcome given tr none true
  | exchanged {rq : Incoming RequestLine} {rs : Incoming StatusLine} : Exchanged given tr rq rs →
      Outcome given tr none (!rq.header.keepAlive || !rs.header.keepAlive)
  /-- A read failed, and the write after it did not. -/
  | hidden : ¬Clean (bodySteps tr) →
      (∃ st n message, (st, BodyEvent.read n (.failed message)) ∈ bodySteps tr) →
      Outcome given tr none true

/-- A request was read, nothing of the response yet. -/
structure Requested (given : Option (Incoming RequestLine)) (tr : List (Relay × RelayEvent))
    (s : Relay) (rq : Incoming RequestLine) : Prop where
  requests_eq : requests given tr = [rq]
  responses_eq : responses tr = []
  steps_eq : responseSteps tr = []
  via : hasFoxyVia rq.header.fields = false
  closeTunnel_eq : s.closeTunnel = !rq.header.keepAlive

/-- The request was relayed and its response read. -/
structure Responded (given : Option (Incoming RequestLine)) (tr : List (Relay × RelayEvent))
    (s : Relay) (rq : Incoming RequestLine) (rs : Incoming StatusLine) : Prop where
  requests_eq : requests given tr = [rq]
  responses_eq : responses tr = [rs]
  requestVia : hasFoxyVia rq.header.fields = false
  responseVia : hasFoxyVia rs.header.fields = false
  written : ∃ st, (st, RelayEvent.writeRequest none) ∈ tr
  relayed : Relayed rq.payload (requestSteps tr)
  closeTunnel_eq : s.closeTunnel = (!rq.header.keepAlive || !rs.header.keepAlive)

/-- `steps` is a run of the body loop over `payload` that has come to `loop`. -/
def Looping (payload : Bytes) (steps : List (BodyLoop × BodyEvent)) (loop : BodyLoop) : Prop :=
  ∃ buffer source chunked, source.rest = payload ∧
    Run BodyLoop.step (BodyLoop.start buffer source chunked) steps loop

/-- What a run has done by the time it is suspended somewhere. -/
def History (given : Option (Incoming RequestLine)) (tr : List (Relay × RelayEvent)) (s : Relay) :
    Prop :=
  match s.point with
  | .readRequest => given = none ∧ tr = [] ∧ s.closeTunnel = false
  | .writeRequest _ source => ∃ rq, Requested given tr s rq ∧ requestSteps tr = [] ∧
      source.rest = rq.payload
  | .requestBody loop => ∃ rq, Requested given tr s rq ∧
      (∃ st, (st, RelayEvent.writeRequest none) ∈ tr) ∧
      Looping rq.payload (requestSteps tr) loop
  | .readResponse => ∃ rq, Requested given tr s rq ∧
      (∃ st, (st, RelayEvent.writeRequest none) ∈ tr) ∧ Relayed rq.payload (requestSteps tr)
  | .writeResponse _ source => ∃ rq rs, Responded given tr s rq rs ∧ responseSteps tr = [] ∧
      source.rest = rs.payload
  | .responseBody loop => ∃ rq rs, Responded given tr s rq rs ∧
      (∃ st, (st, RelayEvent.writeResponse none) ∈ tr) ∧
      Looping rs.payload (responseSteps tr) loop
  | .complete ec closeTunnel => Outcome given tr ec closeTunnel

/-! ### Steps keep it -/

theorem requests_snoc :
    requests given (tr ++ [(s, e)]) = requests given tr ++ (requestBy (s, e)).toList := by
  rw [requests, filterMap_snoc, ← List.append_assoc]
  rfl

theorem responses_snoc :
    responses (tr ++ [(s, e)]) = responses tr ++ (responseBy (s, e)).toList := filterMap_snoc _ _ _

theorem requestSteps_snoc :
    requestSteps (tr ++ [(s, e)]) = requestSteps tr ++ (requestStep (s, e)).toList :=
  filterMap_snoc _ _ _

theorem responseSteps_snoc :
    responseSteps (tr ++ [(s, e)]) = responseSteps tr ++ (responseStep (s, e)).toList :=
  filterMap_snoc _ _ _

theorem visited_snoc : visited (tr ++ [(s, e)]) s' = visited tr s ++ [s'] := by simp [visited]

theorem Requested.snoc (h : Requested given tr s rq) (hq : requestBy (s, e) = none)
    (hr : responseBy (s, e) = none) (hs : responseStep (s, e) = none)
    (hc : s'.closeTunnel = s.closeTunnel) : Requested given (tr ++ [(s, e)]) s' rq := by
  refine ⟨?_, ?_, ?_, h.via, by rw [hc]; exact h.closeTunnel_eq⟩
  · rw [requests_snoc, hq, h.requests_eq]
    rfl
  · rw [responses_snoc, hr, h.responses_eq]
    rfl
  · rw [responseSteps_snoc, hs, h.steps_eq]
    rfl

theorem Responded.snoc (h : Responded given tr s rq rs) (hq : requestBy (s, e) = none)
    (hr : responseBy (s, e) = none) (hs : requestStep (s, e) = none)
    (hc : s'.closeTunnel = s.closeTunnel) : Responded given (tr ++ [(s, e)]) s' rq rs := by
  refine ⟨?_, ?_, h.requestVia, h.responseVia, ?_, ?_, by rw [hc]; exact h.closeTunnel_eq⟩
  · rw [requests_snoc, hq, h.requests_eq]
    rfl
  · rw [responses_snoc, hr, h.responses_eq]
    rfl
  · exact happened_snoc h.written
  · rw [requestSteps_snoc, hs]
    simpa using h.relayed

theorem Looping.snoc {payload : Bytes} {steps : List (BodyLoop × BodyEvent)} {loop loop' : BodyLoop}
    {b : BodyEvent} (h : Looping payload steps loop) (hs : loop.step b = some loop') :
    Looping payload (steps ++ [(loop, b)]) loop' := by
  obtain ⟨buffer, source, chunked, hrest, hrun⟩ := h
  exact ⟨buffer, source, chunked, hrest, hrun.snoc hs⟩

theorem Looping.ok {payload : Bytes} {steps : List (BodyLoop × BodyEvent)} {loop : BodyLoop}
    (h : Looping payload steps loop) : loop.Ok := by
  obtain ⟨buffer, source, chunked, -, hrun⟩ := h
  exact (run_history hrun).ok

theorem Looping.errors {payload : Bytes} {steps : List (BodyLoop × BodyEvent)} {loop : BodyLoop}
    (h : Looping payload steps loop) : Errors steps loop := by
  obtain ⟨buffer, source, chunked, -, hrun⟩ := h
  exact (run_history hrun).errors

theorem Looping.relayed {payload : Bytes} {steps : List (BodyLoop × BodyEvent)} {loop : BodyLoop}
    (h : Looping payload steps loop) (hfin : loop.point = .finished) : Relayed payload steps := by
  obtain ⟨buffer, source, chunked, rfl, hrun⟩ := h
  exact run_relayed hrun hfin

theorem clean_nil : Clean [] := by simp [Clean]

theorem noFailure_nil : NoFailure [] := by simp [NoFailure]

/-- A request header, read or given, is all that has happened. -/
theorem history_onRequest (hc : s.closeTunnel = false) (hq : requests given tr = [rq])
    (hr : responses tr = []) (hqs : requestSteps tr = []) (hrs : responseSteps tr = [])
    (h : s.onRequest rq = some s') : History given tr s' := by
  obtain ⟨hclose, -, ⟨hvia, hp⟩ | ⟨r, source, hvia, -, hrest, hp⟩⟩ := onRequest_eq_some h
  · simp only [History, hp]
    refine .looped (Or.inl ⟨rq, by simp [hq], hvia⟩) ?_ ?_
    · simp [bodySteps, hqs, hrs, clean_nil]
    · simp [bodySteps, hqs, hrs, noFailure_nil]
  · simp only [History, hp]
    exact ⟨rq, ⟨hq, hr, hrs, hvia, by rw [hclose, hc, Bool.false_or]⟩, hqs, hrest⟩

theorem history_start (h : start buffer given = some s₀) : History given [] s₀ := by
  cases given with
  | none =>
      simp only [start, Option.some.injEq] at h
      subst h
      exact ⟨rfl, rfl, rfl⟩
  | some m => exact history_onRequest rfl rfl rfl rfl rfl h

theorem history_onResponse (h : Requested given tr s rq) (hw : ∃ st, (st, RelayEvent.writeRequest none) ∈ tr)
    (hrel : Relayed rq.payload (requestSteps tr)) (hs : s.onResponse rs = some s') :
    History given (tr ++ [(s, .readResponse (.ok rs))]) s' := by
  obtain ⟨hclose, -, hcase⟩ := onResponse_eq_some hs
  have hqs : requestSteps (tr ++ [(s, .readResponse (.ok rs))]) = requestSteps tr := by
    rw [requestSteps_snoc]
    exact List.append_nil _
  have hrs : responseSteps (tr ++ [(s, .readResponse (.ok rs))]) = [] := by
    rw [responseSteps_snoc, h.steps_eq]
    rfl
  have hq : requests given (tr ++ [(s, .readResponse (.ok rs))]) = [rq] := by
    rw [requests_snoc, h.requests_eq]
    rfl
  have hr : responses (tr ++ [(s, .readResponse (.ok rs))]) = [rs] := by
    rw [responses_snoc, h.responses_eq]
    rfl
  rcases hcase with ⟨hvia, hp⟩ | ⟨r, source, hvia, -, hrest, hp⟩
  · simp only [History, hp]
    refine .looped (Or.inr ⟨rs, by simp [hr], hvia⟩) ?_ ?_
    · rw [bodySteps, hqs, hrs]
      exact clean_append_iff.2 ⟨hrel.clean, clean_nil⟩
    · rw [bodySteps, hqs, hrs]
      exact noFailure_append hrel.noFailure noFailure_nil
  · simp only [History, hp]
    refine ⟨rq, rs, ⟨hq, hr, h.via, hvia, ?_, by rw [hqs]; exact hrel, ?_⟩, hrs, hrest⟩
    · exact happened_snoc hw
    · rw [hclose, h.closeTunnel_eq]

/-- An error that ends the operation outside of a body loop. -/
theorem outcome_failed {error : Error} (hq : Clean (requestSteps tr))
    (hr : Clean (responseSteps tr)) (hqs : requestStep (s, e) = none)
    (hrs : responseStep (s, e) = none) : Outcome given (tr ++ [(s, e)]) (some error) true := by
  refine .failed ?_
  rw [bodySteps, requestSteps_snoc, responseSteps_snoc, hqs, hrs]
  exact clean_append_iff.2 ⟨by simpa using hq, by simpa using hr⟩

/-- A body loop that jumps ends the operation. -/
theorem outcome_upcall {steps : List (BodyLoop × BodyEvent)} {loop : BodyLoop} {ec : Option Error}
    (herr : Errors steps loop) (hp : loop.point = .upcall ec) (hsub : steps ⊆ bodySteps tr)
    (hclean : Clean steps → Clean (bodySteps tr)) : Outcome given tr ec true := by
  simp only [Errors, hp] at herr
  cases ec with
  | some error => exact .failed (hclean herr.1)
  | none =>
      obtain ⟨hdirty, st, n, message, hmem⟩ := herr
      refine .hidden ?_ ⟨st, n, message, hsub hmem⟩
      intro hall
      exact hdirty fun st hmem => hall st (hsub hmem)

theorem history_requestBody {loop loop' : BodyLoop} {b : BodyEvent} (hp : s.point = .requestBody loop)
    (h : Requested given tr s rq) (hw : ∃ st, (st, RelayEvent.writeRequest none) ∈ tr)
    (hl : Looping rq.payload (requestSteps tr) loop) (hs : loop.step b = some loop') :
    History given (tr ++ [(s, .requestBody b)]) (s.afterRequestBody loop') := by
  have hstep : requestStep (s, .requestBody b) = some (loop, b) := by simp [requestStep, hp]
  have hqs : requestSteps (tr ++ [(s, .requestBody b)]) = requestSteps tr ++ [(loop, b)] := by
    rw [requestSteps_snoc, hstep]
    rfl
  have hrs : responseSteps (tr ++ [(s, .requestBody b)]) = [] := by
    rw [responseSteps_snoc, h.steps_eq]
    rfl
  have hw' : ∃ st, (st, RelayEvent.writeRequest none) ∈ tr ++ [(s, .requestBody b)] := happened_snoc hw
  have hl' := hl.snoc hs
  cases hp' : loop'.point with
  | reading =>
      simp only [afterRequestBody, hp', History]
      exact ⟨rq, h.snoc rfl rfl rfl rfl, hw', by rw [hqs]; exact hl'⟩
  | writing =>
      simp only [afterRequestBody, hp', History]
      exact ⟨rq, h.snoc rfl rfl rfl rfl, hw', by rw [hqs]; exact hl'⟩
  | finished =>
      simp only [afterRequestBody, hp', History]
      exact ⟨rq, h.snoc rfl rfl rfl rfl, hw', by rw [hqs]; exact hl'.relayed hp'⟩
  | upcall ec =>
      simp only [afterRequestBody, hp', upcall, History]
      refine outcome_upcall hl'.errors hp' ?_ ?_
      · rw [bodySteps, hqs]
        exact List.subset_append_left _ _
      · intro hclean
        rw [bodySteps, hqs, hrs]
        exact clean_append_iff.2 ⟨hclean, clean_nil⟩

theorem history_responseBody {loop loop' : BodyLoop} {b : BodyEvent}
    (hp : s.point = .responseBody loop) (h : Responded given tr s rq rs)
    (hw : ∃ st, (st, RelayEvent.writeResponse none) ∈ tr)
    (hl : Looping rs.payload (responseSteps tr) loop) (hs : loop.step b = some loop') :
    History given (tr ++ [(s, .responseBody b)]) (s.afterResponseBody loop') := by
  have hstep : responseStep (s, .responseBody b) = some (loop, b) := by simp [responseStep, hp]
  have hrs : responseSteps (tr ++ [(s, .responseBody b)]) = responseSteps tr ++ [(loop, b)] := by
    rw [responseSteps_snoc, hstep]
    rfl
  have hw' : ∃ st, (st, RelayEvent.writeResponse none) ∈ tr ++ [(s, .responseBody b)] := happened_snoc hw
  have hl' := hl.snoc hs
  cases hp' : loop'.point with
  | reading =>
      simp only [afterResponseBody, hp', History]
      exact ⟨rq, rs, h.snoc rfl rfl rfl rfl, hw', by rw [hrs]; exact hl'⟩
  | writing =>
      simp only [afterResponseBody, hp', History]
      exact ⟨rq, rs, h.snoc rfl rfl rfl rfl, hw', by rw [hrs]; exact hl'⟩
  | finished =>
      simp only [afterResponseBody, hp', History]
      have h' : Responded given (tr ++ [(s, .responseBody b)]) s rq rs := h.snoc rfl rfl rfl rfl
      rw [h.closeTunnel_eq]
      exact .exchanged ⟨h'.requests_eq, h'.responses_eq, h'.requestVia, h'.responseVia, h'.written,
        hw', h'.relayed, by rw [hrs]; exact hl'.relayed hp'⟩
  | upcall ec =>
      simp only [afterResponseBody, hp', upcall, History]
      have h' : Responded given (tr ++ [(s, .responseBody b)]) s rq rs := h.snoc rfl rfl rfl rfl
      refine outcome_upcall hl'.errors hp' ?_ ?_
      · rw [bodySteps, hrs]
        exact List.subset_append_right _ _
      · intro hclean
        rw [bodySteps, hrs]
        exact clean_append_iff.2 ⟨h'.relayed.clean, hclean⟩

theorem run_history (hstart : start buffer given = some s₀) (h : Run step s₀ tr s) :
    History given tr s := by
  refine h.invariant (history_start hstart) ?_
  intro tr s e s' _ hist hs
  cases step_inv hs with
  | requestFailed hp =>
      simp only [History, hp] at hist
      obtain ⟨-, rfl, -⟩ := hist
      exact outcome_failed clean_nil clean_nil rfl rfl
  | @request m _ hp hreq =>
      simp only [History, hp] at hist
      obtain ⟨rfl, rfl, hc⟩ := hist
      exact history_onRequest hc rfl rfl rfl rfl hreq
  | requestUnwritten hp =>
      simp only [History, hp] at hist
      obtain ⟨rq, hrq, hqs, -⟩ := hist
      exact outcome_failed (by rw [hqs]; exact clean_nil) (by rw [hrq.steps_eq]; exact clean_nil)
        rfl rfl
  | @requestWritten header source hp =>
      simp only [History, hp] at hist
      obtain ⟨rq, hrq, hqs, hrest⟩ := hist
      refine ⟨rq, hrq.snoc rfl rfl rfl rfl, ⟨s, by simp⟩, ?_⟩
      rw [requestSteps_snoc, hqs]
      exact ⟨s.buffer, source, header.chunked, hrest, .nil⟩
  | requestBody hp hloop =>
      simp only [History, hp] at hist
      obtain ⟨rq, hrq, hw, hl⟩ := hist
      exact history_requestBody hp hrq hw hl hloop
  | responseFailed hp =>
      simp only [History, hp] at hist
      obtain ⟨rq, hrq, -, hrel⟩ := hist
      exact outcome_failed hrel.clean (by rw [hrq.steps_eq]; exact clean_nil) rfl rfl
  | response hp hres =>
      simp only [History, hp] at hist
      obtain ⟨rq, hrq, hw, hrel⟩ := hist
      exact history_onResponse hrq hw hrel hres
  | responseUnwritten hp =>
      simp only [History, hp] at hist
      obtain ⟨rq, rs, hrs, hss, -⟩ := hist
      exact outcome_failed hrs.relayed.clean (by rw [hss]; exact clean_nil) rfl rfl
  | @responseWritten header source hp =>
      simp only [History, hp] at hist
      obtain ⟨rq, rs, hrs, hss, hrest⟩ := hist
      refine ⟨rq, rs, hrs.snoc rfl rfl rfl rfl, ⟨s, by simp⟩, ?_⟩
      rw [responseSteps_snoc, hss]
      exact ⟨s.buffer, source, header.chunked, hrest, .nil⟩
  | responseBody hp hloop =>
      simp only [History, hp] at hist
      obtain ⟨rq, rs, hrs, hw, hl⟩ := hist
      exact history_responseBody hp hrs hw hl hloop

/-- How the completed runs ended. -/
theorem run_outcome {ec : Option Error} {closeTunnel : Bool} (hstart : start buffer given = some s₀)
    (h : Run step s₀ tr s) (hp : s.point = .complete ec closeTunnel) :
    Outcome given tr ec closeTunnel := by
  have hist := run_history hstart h
  simp only [History, hp] at hist
  exact hist

/-! ### Success -/

/-- A run that completes without error has seen a loop or finished its exchange,
and no read of a body failed: exactly where no write of a body went through over
a read error, for the error that is reported is the write's. -/
theorem run_success_iff {ec : Option Error} {closeTunnel : Bool}
    (hstart : start buffer given = some s₀) (h : Run step s₀ tr s)
    (hp : s.point = .complete ec closeTunnel) :
    (ec = none → (ViaLoop given tr ∨ ∃ rq rs, Exchanged given tr rq rs) ∧
        NoFailure (bodySteps tr)) ↔ Clean (bodySteps tr) := by
  cases run_outcome hstart h hp with
  | failed hclean => exact ⟨fun _ => hclean, fun _ hec => by cases hec⟩
  | looped hvia hclean hfail => exact ⟨fun _ => hclean, fun _ _ => ⟨Or.inl hvia, hfail⟩⟩
  | @exchanged rq rs hx =>
      have hclean : Clean (bodySteps tr) :=
        clean_append_iff.2 ⟨hx.requestBody.clean, hx.responseBody.clean⟩
      have hfail : NoFailure (bodySteps tr) :=
        noFailure_append hx.requestBody.noFailure hx.responseBody.noFailure
      exact ⟨fun _ => hclean, fun _ _ => ⟨Or.inr ⟨rq, rs, hx⟩, hfail⟩⟩
  | hidden hdirty hread =>
      obtain ⟨st, n, message, hmem⟩ := hread
      constructor
      · intro hprop
        exact absurd hmem ((hprop rfl).2 st n message)
      · intro hclean
        exact absurd hclean hdirty

/-- `GET / HTTP/1.1` without fields. -/
def getRoot : Incoming RequestLine := ⟨⟨⟨.other (ascii "GET"), ascii "/"⟩, 11, []⟩, []⟩

/-- An HTTP/1.1 response without fields. -/
def answer (status : Nat) (payload : Bytes) : Incoming StatusLine := ⟨⟨⟨status⟩, 11, []⟩, payload⟩

/-- What the handler was called with. -/
def called (s : Relay) : Option (Option Error × Bool) :=
  match s.point with
  | .complete ec closeTunnel => some (ec, closeTunnel)
  | _ => none

theorem point_of_called {ec : Option Error} {closeTunnel : Bool} (h : called s = some (ec, closeTunnel)) :
    s.point = .complete ec closeTunnel := by
  unfold called at h
  split at h
  · rename_i hp
    rw [hp]
    simpa using h
  · cases h

/-- A request whose body is longer than the buffer, so that it takes two reads,
relayed with its `204`. -/
theorem run_success_parts :
    ∃ s₀ tr s, start zeros none = some s₀ ∧ Run step s₀ tr s ∧ s.point = .complete none false ∧
      (requestSteps tr).map Prod.snd =
        [.read 2048 .needBuffer, .write none, .read 1 .done, .write none] ∧
      (ViaLoop none tr ∨ ∃ rq rs, Exchanged none tr rq rs) ∧ NoFailure (bodySteps tr) := by
  obtain ⟨s₀, hstart, hex⟩ : ∃ s₀, start zeros none = some s₀ ∧
      (exec step s₀ [.readRequest (.ok ⟨post [⟨ascii "Content-Length", ascii "2049"⟩],
          List.replicate 2049 7⟩), .writeRequest none, .requestBody (.read 2048 .needBuffer),
        .requestBody (.write none), .requestBody (.read 1 .done), .requestBody (.write none),
        .readResponse (.ok (answer 204 [])), .writeResponse none, .responseBody (.write none)]).map
        (fun x => (called x.2, (requestSteps x.1).map Prod.snd, (bodySteps x.1).map (·.1.ec))) =
          some (some (none, false), [.read 2048 .needBuffer, .write none, .read 1 .done, .write none],
            [none, none, none, none, none]) := ⟨_, rfl, by decide +kernel⟩
  obtain ⟨⟨tr, s⟩, hex, hsum⟩ := Option.map_eq_some_iff.1 hex
  obtain ⟨hcalled, hsteps, hclean⟩ : called s = some (none, false) ∧ _ ∧ _ := by
    simpa only [Prod.mk.injEq] using hsum
  have hrun := Run.of_exec hex
  have hp := point_of_called hcalled
  refine ⟨s₀, tr, s, hstart, hrun, hp, hsteps, (run_success_iff hstart hrun hp).2 ?_ rfl⟩
  intro st hmem
  have hec : st.ec ∈ (bodySteps tr).map (·.1.ec) := List.mem_map.2 ⟨_, hmem, rfl⟩
  rw [hclean] at hec
  simpa using hec

/-- A request whose body breaks off after one byte, reported as a success. -/
theorem run_success_broken :
    ∃ s₀ tr s, start zeros none = some s₀ ∧ Run step s₀ tr s ∧ s.point = .complete none true ∧
      ¬((ViaLoop none tr ∨ ∃ rq rs, Exchanged none tr rq rs) ∧ NoFailure (bodySteps tr)) := by
  obtain ⟨s₀, tr, s, hstart, hex, hp, hsteps⟩ : ∃ s₀ tr s, start zeros none = some s₀ ∧
      exec step s₀ [.readRequest (.ok ⟨post [⟨ascii "Content-Length", ascii "3"⟩], [1, 2, 3]⟩),
        .writeRequest none, .requestBody (.read 1 (.failed (ascii "connection reset"))),
        .requestBody (.write none)] = some (tr, s) ∧ s.point = .complete none true ∧
      (bodySteps tr).map Prod.snd =
        [.read 1 (.failed (ascii "connection reset")), .write none] := ⟨_, _, _, rfl, rfl, rfl, rfl⟩
  refine ⟨s₀, tr, s, hstart, Run.of_exec hex, hp, ?_⟩
  intro hprop
  have hread : BodyEvent.read 1 (.failed (ascii "connection reset")) ∈
      (bodySteps tr).map Prod.snd := by simp [hsteps]
  obtain ⟨⟨st, e⟩, hmem, rfl⟩ := List.mem_map.1 hread
  exact hprop.2 _ _ _ hmem

/-! ### Persistence -/

/-- No Connection field holds the option `close`. -/
def NoClose (fs : Fields) : Prop :=
  ∀ f ∈ fs.equalRange .connection, hasToken f.value (ascii "close") = false

instance (fs : Fields) : Decidable (NoClose fs) :=
  inferInstanceAs (Decidable (∀ f ∈ fs.equalRange .connection, _))

/-- RFC 7230, 6.3, of one message: no Connection field asks to close, and an
HTTP/1.0 message asks to stay. -/
def Persistent {S : Type} (h : Header S) : Prop :=
  NoClose h.fields ∧
    (h.version < 11 → ∃ f ∈ h.fields.equalRange .connection,
      hasToken f.value (ascii "keep-alive") = true)

/-- The version and the first Connection field let the message stay. -/
def Stays {S : Type} (h : Header S) : Prop :=
  match h.fields.equalRange .connection with
  | [] => 11 ≤ h.version
  | f :: _ =>
    if h.version < 11 then hasToken f.value (ascii "keep-alive") = true
    else hasToken f.value (ascii "close") = false

/-- `close` stands behind the first Connection field, or beside `keep-alive` in
the first one of an HTTP/1.0 message. -/
def ClosesBehind {S : Type} (h : Header S) : Prop :=
  (∃ g ∈ (h.fields.equalRange .connection).tail, hasToken g.value (ascii "close") = true) ∨
    (h.version < 11 ∧
      ∃ f ∈ (h.fields.equalRange .connection).head?, hasToken f.value (ascii "close") = true)

/-- The status allows a body, and no field says where it ends. -/
def EndsWithConnection (h : Response) : Prop :=
  (h.start.status / 100 ≠ 1 ∧ h.start.status ≠ 204 ∧ h.start.status ≠ 304) ∧
    (∀ f ∈ h.fields.equalRange .transferEncoding, endsInChunked f.value = false) ∧
    contentLength h.fields = none

/-- What `keep_alive()` looks at. -/
theorem keepAlive_iff_stays {S : Type} (h : Header S) : h.keepAlive = true ↔ Stays h := by
  rw [Header.keepAlive, Fields.find_eq_head?, Stays]
  cases h.fields.equalRange .connection with
  | nil => simp
  | cons f fs =>
      by_cases hversion : h.version < 11
      · simp [hversion]
      · simp [hversion]

/-- A message that stays by its first field is persistent unless a `close` is
overlooked. -/
theorem Stays.persistent_iff {S : Type} {h : Header S} (hs : Stays h) :
    Persistent h ↔ ¬ClosesBehind h := by
  rw [Stays] at hs
  rw [Persistent, NoClose, ClosesBehind]
  cases hrange : h.fields.equalRange .connection with
  | nil =>
      rw [hrange] at hs
      have hversion : ¬h.version < 11 := Nat.not_lt.2 hs
      simp [hversion]
  | cons f fs =>
      rw [hrange] at hs
      by_cases hversion : h.version < 11
      · have hkeep : hasToken f.value (ascii "keep-alive") = true := by simpa [hversion] using hs
        have hstay : ∃ g ∈ f :: fs, hasToken g.value (ascii "keep-alive") = true := ⟨f, by simp, hkeep⟩
        simp [hversion, hkeep, and_comm]
      · have hopen : hasToken f.value (ascii "close") = false := by simpa [hversion] using hs
        simp [hversion, hopen]

theorem needEof_iff (h : Response) : Response.needEof h = true ↔ EndsWithConnection h := by
  have hunframed : framing h.fields = .unframed ↔
      parsedChunked h.fields = false ∧ contentLength h.fields = none := by
    unfold framing
    cases parsedChunked h.fields <;> cases contentLength h.fields <;> simp
  rw [Response.needEof, EndsWithConnection, Bool.and_eq_true, beq_iff_eq, hunframed]
  simp [Response.bodiless, parsedChunked, and_assoc]

/-- A finished exchange saw no loop. -/
theorem Exchanged.not_viaLoop (hx : Exchanged given tr rq rs) : ¬ViaLoop given tr := by
  intro hloop
  rcases hloop with ⟨m, hm, hvia⟩ | ⟨m, hm, hvia⟩
  · rw [hx.requests_eq, List.mem_singleton] at hm
    rw [hm, hx.requestVia] at hvia
    cases hvia
  · rw [hx.responses_eq, List.mem_singleton] at hm
    rw [hm, hx.responseVia] at hvia
    cases hvia

/-- The flag of a finished exchange. -/
theorem closeTunnel_of_exchanged {closeTunnel : Bool} (hout : Outcome given tr none closeTunnel)
    (hx : Exchanged given tr rq rs) :
    closeTunnel = (!rq.header.keepAlive || !rs.header.keepAlive) := by
  cases hout with
  | looped hvia _ _ => exact absurd hvia hx.not_viaLoop
  | @exchanged rq' rs' hx' =>
      obtain rfl : rq' = rq := by simpa [hx.requests_eq] using hx'.requests_eq.symm
      obtain rfl : rs' = rs := by simpa [hx.responses_eq] using hx'.responses_eq.symm
      rfl
  | hidden hdirty _ =>
      exact absurd (clean_append_iff.2 ⟨hx.requestBody.clean, hx.responseBody.clean⟩) hdirty

/-- The flag a finished exchange reports is right, that is, false only for two
persistent messages and a response that does not end with its connection, except
where both messages stay by their versions and first Connection fields while one
of them holds `close` elsewhere, or nothing but the end of the connection ends
the response. -/
theorem run_persistence_iff {closeTunnel : Bool} (hstart : start buffer given = some s₀)
    (h : Run step s₀ tr s) (hp : s.point = .complete none closeTunnel)
    (hx : Exchanged given tr rq rs) :
    (closeTunnel = false →
        Persistent rq.header ∧ Persistent rs.header ∧ Response.needEof rs.header = false) ↔
      ¬(Stays rq.header ∧ Stays rs.header ∧
        (ClosesBehind rq.header ∨ ClosesBehind rs.header ∨ EndsWithConnection rs.header)) := by
  have hopen : closeTunnel = false ↔ Stays rq.header ∧ Stays rs.header := by
    rw [closeTunnel_of_exchanged (run_outcome hstart h hp) hx, ← keepAlive_iff_stays,
      ← keepAlive_iff_stays]
    simp
  have hframed : Response.needEof rs.header = false ↔ ¬EndsWithConnection rs.header := by
    rw [← needEof_iff, Bool.not_eq_true]
  rw [hopen, hframed]
  constructor
  · intro hprop hfail
    obtain ⟨hrq, hrs, hcase⟩ := hfail
    obtain ⟨hprq, hprs, hend⟩ := hprop ⟨hrq, hrs⟩
    rcases hcase with hclose | hclose | heof
    · exact hrq.persistent_iff.1 hprq hclose
    · exact hrs.persistent_iff.1 hprs hclose
    · exact hend heof
  · intro hok hstay
    obtain ⟨hrq, hrs⟩ := hstay
    refine ⟨hrq.persistent_iff.2 fun hclose => ?_, hrs.persistent_iff.2 fun hclose => ?_, fun heof => ?_⟩
    · exact hok ⟨hrq, hrs, Or.inl hclose⟩
    · exact hok ⟨hrq, hrs, Or.inr (Or.inl hclose)⟩
    · exact hok ⟨hrq, hrs, Or.inr (Or.inr heof)⟩

/-- Only a finished exchange leaves the tunnel open. -/
theorem exchanged_of_open (hout : Outcome given tr none false) : ∃ rq rs, Exchanged given tr rq rs := by
  generalize hc : false = closeTunnel at hout
  cases hout with
  | looped _ _ _ => cases hc
  | @exchanged rq rs hx => exact ⟨rq, rs, hx⟩
  | hidden _ _ => cases hc

/-- A request without a body and a `204` leave the tunnel open, rightly. -/
theorem run_persistence_bodiless :
    ∃ s₀ tr s rq rs, start zeros none = some s₀ ∧ Run step s₀ tr s ∧
      s.point = .complete none false ∧ Exchanged none tr rq rs ∧
      Persistent rq.header ∧ Persistent rs.header ∧ Response.needEof rs.header = false := by
  obtain ⟨s₀, tr, s, hstart, hex, hp, hrq, hrs⟩ : ∃ s₀ tr s, start zeros none = some s₀ ∧
      exec step s₀ [.readRequest (.ok getRoot), .writeRequest none, .requestBody (.write none),
        .readResponse (.ok (answer 204 [])), .writeResponse none, .responseBody (.write none)] =
          some (tr, s) ∧ s.point = .complete none false ∧ requests none tr = [getRoot] ∧
      responses tr = [answer 204 []] := ⟨_, _, _, rfl, rfl, rfl, rfl, rfl⟩
  have hrun := Run.of_exec hex
  obtain ⟨rq, rs, hx⟩ := exchanged_of_open (run_outcome hstart hrun hp)
  obtain rfl : getRoot = rq := by simpa [hrq] using hx.requests_eq
  obtain rfl : answer 204 [] = rs := by simpa [hrs] using hx.responses_eq
  refine ⟨s₀, tr, s, _, _, hstart, hrun, hp, hx, (run_persistence_iff hstart hrun hp hx).2 ?_ rfl⟩
  intro hfail
  obtain ⟨-, -, hclose | hclose | heof⟩ := hfail
  · simp [ClosesBehind, getRoot, Fields.equalRange] at hclose
  · simp [ClosesBehind, answer, Fields.equalRange] at hclose
  · exact heof.1.2.1 rfl

/-- A response that ends with its connection leaves the tunnel open. -/
theorem run_persistence_eof :
    ∃ s₀ tr s rq rs, start zeros none = some s₀ ∧ Run step s₀ tr s ∧
      s.point = .complete none false ∧ Exchanged none tr rq rs ∧
      Response.needEof rs.header = true := by
  obtain ⟨s₀, tr, s, hstart, hex, hp, hrs⟩ : ∃ s₀ tr s, start zeros none = some s₀ ∧
      exec step s₀ [.readRequest (.ok getRoot), .writeRequest none, .requestBody (.write none),
        .readResponse (.ok (answer 200 [7])), .writeResponse none, .responseBody (.read 1 .done),
        .responseBody (.write none)] = some (tr, s) ∧ s.point = .complete none false ∧
      responses tr = [answer 200 [7]] := ⟨_, _, _, rfl, rfl, rfl, rfl⟩
  have hrun := Run.of_exec hex
  obtain ⟨rq, rs, hx⟩ := exchanged_of_open (run_outcome hstart hrun hp)
  obtain rfl : answer 200 [7] = rs := by simpa [hrs] using hx.responses_eq
  exact ⟨s₀, tr, s, _, _, hstart, hrun, hp, hx, by decide +kernel⟩

end Foxy.Detail.Relay
