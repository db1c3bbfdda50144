import Foxy.Detail.RelayRuns

/-!
# Foxy.Detail.ViaLoops

No message goes round for ever: what the relay forwards carries its own Via
field, and a relay that reads a message with that field in it stops there.

Between the two other hops may have been at the message. What matters of it is
that the proxy's field is still among the others, its value longer on either
side or in another case (`Onward`).
-/

namespace Foxy.Detail

open Http Lib BodyLoop

/-! ### What `has_foxy_via` finds -/

/-- Codes below 256 have the same lower case as the bytes they are. -/
theorem toLower_eq_iff {b : UInt8} {c : Char} (hc : c.toNat < 256) :
    (X3.toLower (X3.CodeUnit.code b) == X3.toLower c.toNat) = true ↔ lower b = lower (chr c) := by
  have hlt : ∀ n < 256, X3.toLower n < 256 := by
    intro n hn
    unfold X3.toLower
    split
    · next h =>
        simp only [Bool.and_eq_true, decide_eq_true_eq] at h
        omega
    · exact hn
  have hb : X3.toLower b.toNat < 256 := hlt _ b.toNat_lt
  rw [beq_iff_eq, lower, lower, X3.toNat_chr hc]
  constructor
  · intro h
    show UInt8.ofNat (X3.toLower b.toNat) = _
    rw [show X3.toLower b.toNat = X3.toLower c.toNat from h]
  · intro h
    have hn := congrArg UInt8.toNat h
    rw [UInt8.toNat_ofNat', UInt8.toNat_ofNat', Nat.mod_eq_of_lt hb,
      Nat.mod_eq_of_lt (hlt _ hc)] at hn
    exact hn

/-- A literal below `no_case` matches what differs from it in case only. -/
theorem litNoCase_eq_some {l : String} (hl : l.toList.all (·.toNat < 256) = true) {s r : Bytes} :
    X3.litNoCase l s = some r ↔ ∃ w, s = w ++ r ∧ iequals w (ascii l) = true := by
  have hl : ∀ c ∈ l.toList, c.toNat < 256 := by simpa using hl
  rw [X3.litNoCase, Peg.tokens_eq_some]
  refine exists_congr fun w => and_congr Iff.rfl ?_
  rw [X3.codes, List.map_map, List.forall₂_map_left_iff, iequals, beq_iff_eq, ascii, eq_comm,
    List.map_map, ← List.forall₂_eq_eq_eq, List.forall₂_map_left_iff, List.forall₂_map_right_iff]
  generalize l.toList = cs at hl
  induction cs generalizing w with
  | nil => simp
  | cons c cs ih =>
      cases w with
      | nil => simp
      | cons b w =>
          rw [List.forall₂_cons, List.forall₂_cons, ih w fun c hc => hl c (List.mem_cons_of_mem _ hc)]
          refine and_congr_left fun _ => ?_
          rw [Function.comp_apply, Function.comp_apply, eq_comm (a := lower (chr c))]
          exact toLower_eq_iff (hl c List.mem_cons_self)

/-- The scan finds `1.1 foxy` wherever it stands and in any case. -/
theorem isSome_foxyVia (value : Bytes) :
    (foxyVia value).isSome ↔
      ∃ pre w post, value = pre ++ w ++ post ∧ iequals w (ascii "1.1 foxy") = true := by
  have hstar : (foxyVia value).isSome =
      (Peg.seq (Peg.star (Peg.diff X3.anyChar (X3.litNoCase "1.1 foxy")))
        (X3.litNoCase "1.1 foxy") value).isSome := by
    rw [foxyVia, Peg.seq]
    split
    · next h => rw [h]
    · next h => rw [h]; rfl
  rw [hstar, X3.anyChar, Peg.isSome_search (fun _ => rfl)]
  constructor
  · intro h
    obtain ⟨pre, t, rfl, ht⟩ := h
    obtain ⟨r, hr⟩ := Option.isSome_iff_exists.1 ht
    obtain ⟨w, rfl, hw⟩ := (litNoCase_eq_some (by decide)).1 hr
    exact ⟨pre, w, r, by simp, hw⟩
  · intro h
    obtain ⟨pre, w, post, rfl, hw⟩ := h
    refine ⟨pre, w ++ post, by simp, ?_⟩
    exact Option.isSome_iff_exists.2 ⟨post, (litNoCase_eq_some (by decide)).2 ⟨w, rfl, hw⟩⟩

/-! ### The proxy's field on its way -/

/-- The Via field the relay inserts. -/
def viaField : Field := ⟨FieldName.via.text, ascii "1.1 foxy"⟩

/-- What other hops may make of the fields `fs`, following the field `f` in
them: the others come, go and change places as they like, `f` grows on either
side or changes its case. -/
inductive Onward (fs : Fields) (f : Field) : Fields → Field → Prop
  | sent : f ∈ fs → Onward fs f fs f
  | others {gs gs' : Fields} {g : Field} : Onward fs f gs g → g ∈ gs' → Onward fs f gs' g
  | extended {before after : Fields} {g : Field} (pre post : Bytes) :
      Onward fs f (before ++ g :: after) g →
      Onward fs f (before ++ ⟨g.name, pre ++ g.value ++ post⟩ :: after)
        ⟨g.name, pre ++ g.value ++ post⟩
  | recased {before after : Fields} {g g' : Field} : Onward fs f (before ++ g :: after) g →
      iequals g'.name g.name = true → iequals g'.value g.value = true →
      Onward fs f (before ++ g' :: after) g'

theorem Onward.mem {fs gs : Fields} {f g : Field} (h : Onward fs f gs g) : g ∈ gs := by
  cases h with
  | sent hmem => exact hmem
  | others _ hmem => exact hmem
  | extended => simp
  | recased => simp

/-- A text that differs in case from one with a part `w` has such a part. -/
theorem iequals_infix {v pre w post : Bytes} (h : iequals v (pre ++ w ++ post) = true) :
    ∃ pre' w' post', v = pre' ++ w' ++ post' ∧ iequals w' w = true := by
  rw [iequals, beq_iff_eq, List.map_append, List.map_append] at h
  obtain ⟨v₁, post', rfl, hv₁, -⟩ := List.map_eq_append_iff.1 h
  obtain ⟨pre', w', rfl, -, hw'⟩ := List.map_eq_append_iff.1 hv₁
  exact ⟨pre', w', post', rfl, by rw [iequals, beq_iff_eq]; exact hw'⟩

/-- The field stays a Via field that the scan finds. -/
theorem Onward.found {fs gs : Fields} {g : Field} (h : Onward fs viaField gs g) :
    g.is .via = true ∧ (foxyVia g.value).isSome := by
  induction h with
  | sent _ => decide +kernel
  | others _ _ ih => exact ih
  | extended pre post _ ih =>
      refine ⟨ih.1, (isSome_foxyVia _).2 ?_⟩
      obtain ⟨pre', w, post', hg, hw⟩ := (isSome_foxyVia _).1 ih.2
      exact ⟨pre ++ pre', w, post' ++ post, by simp [hg], hw⟩
  | recased _ hname hvalue ih =>
      refine ⟨?_, (isSome_foxyVia _).2 ?_⟩
      · rw [Field.is, iequals_trans hname]
        exact ih.1
      · obtain ⟨pre, w, post, hg, hw⟩ := (isSome_foxyVia _).1 ih.2
        rw [hg] at hvalue
        obtain ⟨pre', w', post', hg', hw'⟩ := iequals_infix hvalue
        exact ⟨pre', w', post', hg', by rw [iequals_trans hw']; exact hw⟩

theorem Onward.hasFoxyVia_eq_true {fs gs : Fields} {g : Field} (h : Onward fs viaField gs g) :
    hasFoxyVia gs = true := by
  rw [hasFoxyVia, List.any_eq_true]
  exact ⟨g, List.mem_filter.2 ⟨h.mem, h.found.1⟩, h.found.2⟩

/-- The rewrite puts the field in, whatever it took out. -/
theorem viaField_mem_rewrite {S : Type} {h : Header S} {r : Rewritten S} {closeTunnel : Bool}
    {exported : Fields} (hr : rewriteHeader closeTunnel exported h = some r) :
    viaField ∈ r.header.fields := by
  obtain ⟨-, -, -, h', -, -, -, hheader⟩ := rewriteHeader_eq_some hr
  have hrange : viaField ∈ r.header.fields.equalRange .via := by
    rw [hheader, Fields.equalRange_insert, if_pos rfl]
    exact List.mem_append_right _ (List.mem_singleton_self _)
  exact (List.mem_filter.1 hrange).1

namespace Relay

variable {given : Option (Incoming RequestLine)} {tr : List (Relay × RelayEvent)} {s s' s₀ : Relay}
  {e : RelayEvent} {buffer : Buffer}

/-! ### What is forwarded -/

/-- The fields of the header the relay is writing, to either peer. -/
def forwarding (s : Relay) : Option Fields :=
  match s.point with
  | .writeRequest header _ => some header.fields
  | .writeResponse header _ => some header.fields
  | _ => none

theorem onRequest_carries {m : Incoming RequestLine} {fs : Fields} (h : s.onRequest m = some s')
    (hf : s'.forwarding = some fs) : viaField ∈ fs := by
  obtain ⟨-, -, ⟨-, hp⟩ | ⟨r, source, -, hr, -, hp⟩⟩ := onRequest_eq_some h
  · simp [forwarding, hp] at hf
  · simp only [forwarding, hp, Option.some.injEq] at hf
    exact hf ▸ viaField_mem_rewrite hr

theorem onResponse_carries {m : Incoming StatusLine} {fs : Fields} (h : s.onResponse m = some s')
    (hf : s'.forwarding = some fs) : viaField ∈ fs := by
  obtain ⟨-, -, ⟨-, hp⟩ | ⟨r, source, -, hr, -, hp⟩⟩ := onResponse_eq_some h
  · simp [forwarding, hp] at hf
  · simp only [forwarding, hp, Option.some.injEq] at hf
    exact hf ▸ viaField_mem_rewrite hr

theorem forwarding_afterRequestBody (loop : BodyLoop) :
    (s.afterRequestBody loop).forwarding = none := by
  unfold afterRequestBody
  split <;> rfl

theorem forwarding_afterResponseBody (loop : BodyLoop) :
    (s.afterResponseBody loop).forwarding = none := by
  unfold afterResponseBody
  split <;> rfl

/-- Every header the relay forwards carries the proxy's field. -/
theorem run_carries (hstart : start buffer given = some s₀) (h : Run step s₀ tr s) {fs : Fields}
    (hf : s.forwarding = some fs) : viaField ∈ fs := by
  cases h with
  | nil =>
      cases given with
      | none =>
          simp only [start, Option.some.injEq] at hstart
          subst hstart
          cases hf
      | some m => exact onRequest_carries hstart hf
  | snoc _ hs =>
      cases step_inv hs with
      | requestFailed _ => cases hf
      | request _ hreq => exact onRequest_carries hreq hf
      | requestUnwritten _ => cases hf
      | requestWritten _ => cases hf
      | requestBody _ _ => simp [forwarding_afterRequestBody] at hf
      | responseFailed _ => cases hf
      | response _ hres => exact onResponse_carries hres hf
      | responseUnwritten _ => cases hf
      | responseWritten _ => cases hf
      | responseBody _ _ => simp [forwarding_afterResponseBody] at hf

/-! ### Where a loop ends -/

/-- The relay is writing to the remote. -/
def ToRemote (s : Relay) : Prop :=
  (∃ header source, s.point = .writeRequest header source) ∨ ∃ loop, s.point = .requestBody loop

/-- The relay is writing to its client. -/
def ToClient (s : Relay) : Prop :=
  (∃ header source, s.point = .writeResponse header source) ∨ ∃ loop, s.point = .responseBody loop

/-- A completed relay is never resumed. -/
theorem step_complete {ec : Option Error} {closeTunnel : Bool}
    (hp : s.point = .complete ec closeTunnel) : s.step e = none := by
  simp [step, hp]

theorem onRequest_looped {m : Incoming RequestLine} (h : s.onRequest m = some s')
    (hvia : hasFoxyVia m.header.fields = true) : s'.point = .complete none true := by
  obtain ⟨-, -, ⟨-, hp⟩ | ⟨r, source, hno, -, -, -⟩⟩ := onRequest_eq_some h
  · exact hp
  · rw [hvia] at hno
    cases hno

theorem onResponse_looped {m : Incoming StatusLine} (h : s.onResponse m = some s')
    (hvia : hasFoxyVia m.header.fields = true) : s'.point = .complete none true := by
  obtain ⟨-, -, ⟨-, hp⟩ | ⟨r, source, hno, -, -, -⟩⟩ := onResponse_eq_some h
  · exact hp
  · rw [hvia] at hno
    cases hno

/-- A request that has been here before ends the relay before anything is
written. -/
theorem run_looped_request (hstart : start buffer given = some s₀) (h : Run step s₀ tr s) :
    ∀ m ∈ requests given tr, hasFoxyVia m.header.fields = true →
      s.point = .complete none true ∧ ∀ st ∈ visited tr s, ¬st.ToRemote ∧ ¬st.ToClient := by
  have hquiet : ∀ st : Relay, st.point = .readRequest ∨ st.point = .complete none true →
      ¬st.ToRemote ∧ ¬st.ToClient := by
    intro st hst
    rcases hst with hst | hst <;> simp [ToRemote, ToClient, hst]
  refine h.invariant (I := fun tr s => ∀ m ∈ requests given tr,
    hasFoxyVia m.header.fields = true → s.point = .complete none true ∧
      ∀ st ∈ visited tr s, ¬st.ToRemote ∧ ¬st.ToClient) ?_ ?_
  · intro m hm hvia
    cases given with
    | none => cases hm
    | some m' =>
        obtain rfl : m = m' := by simpa [requests] using hm
        have hp := onRequest_looped hstart hvia
        exact ⟨hp, by simpa [visited] using hquiet s₀ (Or.inr hp)⟩
  · intro tr s e s' hrun ih hs m hm hvia
    rw [requests_snoc] at hm
    rcases List.mem_append.1 hm with hm | hm
    · rw [step_complete (ih m hm hvia).1] at hs
      cases hs
    · cases step_inv hs with
      | request hp hreq =>
          obtain rfl : m = _ := List.mem_singleton.1 hm
          have hist := run_history hstart hrun
          simp only [History, hp] at hist
          obtain ⟨-, rfl, -⟩ := hist
          have hp' := onRequest_looped hreq hvia
          refine ⟨hp', ?_⟩
          intro st hst
          rcases List.mem_append.1 hst with hst | hst
          · rw [List.mem_singleton.1 hst]
            exact hquiet s (Or.inl hp)
          · rw [List.mem_singleton.1 hst]
            exact hquiet s' (Or.inr hp')
      | requestFailed => cases hm
      | requestUnwritten => cases hm
      | requestWritten => cases hm
      | requestBody => cases hm
      | responseFailed => cases hm
      | response => cases hm
      | responseUnwritten => cases hm
      | responseWritten => cases hm
      | responseBody => cases hm

/-- Nothing was written to the client before a response is read. -/
theorem run_unanswered (hstart : start buffer given = some s₀) (h : Run step s₀ tr s)
    (hp : s.point = .readResponse) : ∀ st ∈ visited tr s, ¬st.ToClient := by
  have hist := run_history hstart h
  simp only [History, hp] at hist
  obtain ⟨rq, hrq, -, -⟩ := hist
  intro st hst hclient
  rcases List.mem_append.1 hst with hst | hst
  · obtain ⟨x, hx, rfl⟩ := List.mem_map.1 hst
    obtain ⟨before, after, -, rfl, hrun, -⟩ := h.split hx
    have hbefore : responses before ≠ [] := by
      have hist' := run_history hstart hrun
      rcases hclient with ⟨header, source, hw⟩ | ⟨loop, hw⟩
      · simp only [History, hw] at hist'
        obtain ⟨rq', rs, hrs, -, -⟩ := hist'
        simp [hrs.responses_eq]
      · simp only [History, hw] at hist'
        obtain ⟨rq', rs, hrs, -, -⟩ := hist'
        simp [hrs.responses_eq]
    have hall := hrq.responses_eq
    rw [responses, List.filterMap_append] at hall
    exact hbefore (List.append_eq_nil_iff.1 hall).1
  · rw [List.mem_singleton.1 hst] at hclient
    simp [ToClient, hp] at hclient

/-- A response that has been here before ends the relay before anything is
written to the client. -/
theorem run_looped_response (hstart : start buffer given = some s₀) (h : Run step s₀ tr s) :
    ∀ m ∈ responses tr, hasFoxyVia m.header.fields = true →
      s.point = .complete none true ∧ ∀ st ∈ visited tr s, ¬st.ToClient := by
  refine h.invariant (I := fun tr s => ∀ m ∈ responses tr,
    hasFoxyVia m.header.fields = true → s.point = .complete none true ∧
      ∀ st ∈ visited tr s, ¬st.ToClient) (by simp [responses]) ?_
  intro tr s e s' hrun ih hs m hm hvia
  rw [responses_snoc] at hm
  rcases List.mem_append.1 hm with hm | hm
  · rw [step_complete (ih m hm hvia).1] at hs
    cases hs
  · cases step_inv hs with
    | response hp hres =>
        obtain rfl : m = _ := List.mem_singleton.1 hm
        have hp' := onResponse_looped hres hvia
        refine ⟨hp', ?_⟩
        intro st hst
        rw [visited_snoc] at hst
        rcases List.mem_append.1 hst with hst | hst
        · exact run_unanswered hstart hrun hp st hst
        · rw [List.mem_singleton.1 hst]
          simp [ToClient, hp']
    | requestFailed => cases hm
    | request => cases hm
    | requestUnwritten => cases hm
    | requestWritten => cases hm
    | requestBody => cases hm
    | responseFailed => cases hm
    | responseUnwritten => cases hm
    | responseWritten => cases hm
    | responseBody => cases hm

/-- Every header the relay forwards is one that `has_foxy_via` finds; and
whatever other hops make of it, a relay that reads it as a request completes
without an error, closes the tunnel and has written to neither peer, and one
that reads it as a response has written nothing to its client. -/
theorem run_no_forwarding_loop (hstart : start buffer given = some s₀) (h : Run step s₀ tr s)
    {fs : Fields} (hf : s.forwarding = some fs) :
    hasFoxyVia fs = true ∧
      ∀ fs' g, Onward fs viaField fs' g → ∀ buffer' given' s₀' tr' s',
        start buffer' given' = some s₀' → Run step s₀' tr' s' →
          ((∃ m ∈ requests given' tr', m.header.fields = fs') →
            s'.point = .complete none true ∧
              ∀ st ∈ visited tr' s', ¬st.ToRemote ∧ ¬st.ToClient) ∧
          ((∃ m ∈ responses tr', m.header.fields = fs') →
            s'.point = .complete none true ∧ ∀ st ∈ visited tr' s', ¬st.ToClient) := by
  refine ⟨(Onward.sent (run_carries hstart h hf)).hasFoxyVia_eq_true, ?_⟩
  intro fs' g honward buffer' given' s₀' tr' s' hstart' h'
  have hvia := honward.hasFoxyVia_eq_true
  constructor
  · intro hread
    obtain ⟨m, hm, rfl⟩ := hread
    exact run_looped_request hstart' h' m hm hvia
  · intro hread
    obtain ⟨m, hm, rfl⟩ := hread
    exact run_looped_response hstart' h' m hm hvia

/-- A request that lists Via as a Connection option, forwarded, joined to another
hop's Via field in upper case, and read again. -/
theorem run_no_forwarding_loop_listed :
    ∃ s₀ tr s fs s₁, start zeros none = some s₀ ∧ Run step s₀ tr s ∧ s.forwarding = some fs ∧
      start zeros (some ⟨⟨⟨.other (ascii "GET"), ascii "/"⟩, 11,
        [⟨ascii "via", ascii "1.0 a, 1.1 FOXY"⟩, ⟨ascii "Host", ascii "b"⟩]⟩, []⟩) = some s₁ ∧
      hasFoxyVia fs = true ∧ s₁.point = .complete none true := by
  obtain ⟨s₀, hstart, hex⟩ : ∃ s₀, start zeros none = some s₀ ∧
      (exec step s₀ [.readRequest (.ok ⟨⟨⟨.other (ascii "GET"), ascii "/"⟩, 11,
        [⟨ascii "Connection", ascii "Via"⟩, ⟨ascii "Via", ascii "1.0 a"⟩]⟩, []⟩)]).map
          (fun r => r.2.forwarding) = some (some [viaField]) := by
    refine ⟨⟨.readRequest, zeros, [], [], false⟩, rfl, ?_⟩
    decide +kernel
  obtain ⟨⟨tr, s⟩, hex, hf⟩ := Option.map_eq_some_iff.1 hex
  have hrun := Run.of_exec hex
  obtain ⟨s₁, hstart₁⟩ : ∃ s₁, start zeros (some ⟨⟨⟨.other (ascii "GET"), ascii "/"⟩, 11,
      [⟨ascii "via", ascii "1.0 a, 1.1 FOXY"⟩, ⟨ascii "Host", ascii "b"⟩]⟩, []⟩) = some s₁ := ⟨_, rfl⟩
  have honward : Onward [viaField] viaField
      [⟨ascii "via", ascii "1.0 a, 1.1 FOXY"⟩, ⟨ascii "Host", ascii "b"⟩]
      ⟨ascii "via", ascii "1.0 a, 1.1 FOXY"⟩ := by
    have hsent : Onward [viaField] viaField ([] ++ viaField :: []) viaField := .sent (by simp)
    have hlonger := Onward.extended (ascii "1.0 a, ") [] hsent
    have hupper : Onward [viaField] viaField ([] ++ ⟨ascii "via", ascii "1.0 a, 1.1 FOXY"⟩ :: [])
        ⟨ascii "via", ascii "1.0 a, 1.1 FOXY"⟩ :=
      .recased hlonger (by decide +kernel) (by decide +kernel)
    exact .others hupper (by simp)
  obtain ⟨hvia, hloop⟩ := run_no_forwarding_loop hstart hrun hf
  exact ⟨s₀, tr, s, _, s₁, hstart, hrun, hf, hstart₁, hvia,
    ((hloop _ _ honward zeros _ s₁ [] s₁ hstart₁ .nil).1 ⟨_, List.mem_singleton_self _, rfl⟩).1⟩

end Relay

end Foxy.Detail
