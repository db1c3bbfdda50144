import Foxy.Detail.BodyLoop

/-!
# Foxy.Detail.ChunkedOutput

What the body loop puts on the wire.

Every buffer handed to a chunked serializer becomes one chunk, and the last-chunk
follows the buffer with which the parser was done. A read that ends the message
without having stored anything hands over an empty buffer: its chunk reads like
a last-chunk, and the real one comes after it. A serializer that is not chunked
writes the payload as it is.
-/

namespace Foxy.Detail.BodyLoop

open Http Lib

variable {tr : List (BodyLoop × BodyEvent)} {s s' : BodyLoop} {e : BodyEvent}
  {buffer : Buffer} {parser : Source} {chunked : Bool}

/-- What a run has written: the buffers that got through, each as the serializer
encodes it, and the end of the body once the loop is through. -/
structure Wire (chunked : Bool) (tr : List (BodyLoop × BodyEvent)) (s : BodyLoop) : Prop where
  chunked : s.sr.chunked = chunked
  data : s.point = .writing → s.body.data ≠ none
  encoded : s.point = .reading ∨ s.point = .writing → wire tr = (sent tr).flatMap s.sr.encode
  complete : s.point = .finished → wire tr = (sent tr).flatMap s.sr.encode ++ s.sr.ending
  ended : s.parser.isDone = true → ∃ st n, (st, BodyEvent.read n .done) ∈ tr

theorem wire_read {n : Nat} {r : ReadEnd} (hok : s.Ok) (h : Wire chunked tr s)
    (hp : s.point = .reading) (hr : s.afterRead n r = some s') :
    Wire chunked (tr ++ [(s, .read n r)]) s' := by
  obtain ⟨-, hp', -, hdone, hbody, -, -, hsr⟩ := afterRead_eq_some hok hp hr
  have hsent : sent (tr ++ [(s, .read n r)]) = sent tr := by
    rw [sent_snoc]
    exact List.append_nil _
  refine ⟨by rw [hsr]; exact h.chunked, by simp [hbody], ?_, by simp [hp'], ?_⟩
  · intro _
    rw [wire_snoc, hsent, hsr, h.encoded (Or.inl hp)]
    exact List.append_nil _
  · intro hd
    obtain rfl : r = .done := by simpa [hdone] using hd
    exact ⟨s, n, by simp⟩

theorem wire_write {failure : Option (Nat × Bytes)} (hok : s.Ok) (h : Wire chunked tr s)
    (hp : s.point = .writing) (hw : s.afterWrite failure = some s') :
    Wire chunked (tr ++ [(s, .write failure)]) s' := by
  -- the buffer that was waiting is the one written
  obtain ⟨w, hbytes, hwritten⟩ : ∃ w, s.body.bytes s.buffer = some w ∧ _ := by
    rcases write_spec hok hp with ⟨hnone, -⟩ | hsome
    · exact absurd hnone (h.data hp)
    · exact hsome
  have hsent : sent (tr ++ [(s, .write none)]) = sent tr ++ [w] := by
    rw [sent_snoc, sentBy, hbytes]
    rfl
  have hended : s.parser.isDone = true →
      ∃ st n, (st, BodyEvent.read n .done) ∈ tr ++ [(s, .write failure)] := by
    intro hd
    obtain ⟨st, n, hmem⟩ := h.ended hd
    exact ⟨st, n, List.mem_append_left _ hmem⟩
  rcases afterWrite_eq_some hok hp hw with ⟨sent, message, rfl, rfl⟩ | ⟨rfl, -, rfl⟩ |
    ⟨rfl, -, hdone, rfl⟩ | ⟨rfl, -, hdone, rfl⟩
  · exact ⟨h.chunked, by simp, by simp, by simp, hended⟩
  · exact ⟨h.chunked, by simp, by simp, by simp, hended⟩
  · rcases hwritten with ⟨hnd, -⟩ | ⟨-, hwr⟩
    · rw [hdone] at hnd
      cases hnd
    · refine ⟨by rw [hwr]; exact h.chunked, by simp, by simp, ?_, hended⟩
      intro _
      rw [wire_snoc, hsent, h.encoded (Or.inr hp), wireBy, hwr]
      -- being done does not change what the serializer writes
      change (sent tr).flatMap s.sr.encode ++ (s.sr.encode w ++ s.sr.ending) =
        (sent tr ++ [w]).flatMap s.sr.encode ++ s.sr.ending
      simp
  · rcases hwritten with ⟨-, hwr⟩ | ⟨hd, -⟩
    · rw [loopHead_of_not_done hdone]
      refine ⟨h.chunked, by simp, ?_, by simp, hended⟩
      intro _
      rw [wire_snoc, hsent, h.encoded (Or.inr hp), wireBy, hwr]
      simp
    · rw [hdone] at hd
      cases hd

theorem run_wire (hnd : parser.isDone = false)
    (h : Run step (start buffer parser chunked) tr s) : Wire chunked tr s := by
  have hstart : start buffer parser chunked = ⟨.reading, buffer, parser,
      { data := some 0, size := bufferSize }, { chunked := chunked }, none⟩ := by
    simp [start, loopHead, hnd]
  refine h.invariant ?_ ?_
  · rw [hstart]
    exact ⟨rfl, by simp, fun _ => rfl, by simp, by simp [hnd]⟩
  · intro tr s e s' hrun hwire hs
    have hok := (run_history hrun).ok
    rcases step_eq_some hs with ⟨n, r, rfl, hp, hr⟩ | ⟨failure, rfl, hp, hw⟩
    · exact wire_read hok hwire hp hr
    · exact wire_write hok hwire hp hw

/-! ### When the output is one chunked body -/

/-- The read that ended the message stored something. -/
def EndsStored (tr : List (BodyLoop × BodyEvent)) : Prop :=
  ∀ st n, (st, BodyEvent.read n .done) ∈ tr → n ≠ 0

/-- The parser asked for another buffer only when there was more to store. -/
def AsksForMore (tr : List (BodyLoop × BodyEvent)) : Prop :=
  ∀ st n, (st, BodyEvent.read n .needBuffer) ∈ tr → n < st.parser.rest.length

/-- The loop was left normally. -/
def Finished (tr : List (BodyLoop × BodyEvent)) : Prop :=
  ∃ st e st', (st, e) ∈ tr ∧ step st e = some st' ∧ st'.point = .finished

instance (tr : List (BodyLoop × BodyEvent)) : Decidable (EndsStored tr) :=
  decidable_of_iff (∀ x ∈ tr, x.2 ≠ .read 0 .done)
    ⟨fun h st _ hmem hzero => h (st, _) hmem (by rw [hzero]),
      fun h x hmem heq => h x.1 0 (by rw [← heq]; exact hmem) rfl⟩

instance (tr : List (BodyLoop × BodyEvent)) : Decidable (Finished tr) :=
  decidable_of_iff (∃ x ∈ tr, (step x.1 x.2).map (·.point) = some .finished)
    ⟨fun h => by
      obtain ⟨x, hmem, hx⟩ := h
      obtain ⟨st', hs, hp⟩ := Option.map_eq_some_iff.1 hx
      exact ⟨x.1, x.2, st', hmem, hs, hp⟩,
    fun h => by
      obtain ⟨st, e, st', hmem, hs, hp⟩ := h
      exact ⟨(st, e), hmem, by simp [hs, hp]⟩⟩

/-- A loop that was left takes no further step. -/
theorem point_of_finished {s₀ : BodyLoop} (h : Run step s₀ tr s) :
    Finished tr → s.point = .finished := by
  refine h.invariant (I := fun tr s => Finished tr → s.point = .finished) ?_ ?_
  · intro hfin
    obtain ⟨st, e, st', hmem, -⟩ := hfin
    cases hmem
  · intro tr s e s' _ ih hs hfin
    obtain ⟨st, e', st', hmem, hst, hp⟩ := hfin
    rcases List.mem_append.1 hmem with hmem | hmem
    · have hleft := ih ⟨st, e', st', hmem, hst, hp⟩
      rcases step_eq_some hs with ⟨n, r, -, hread, -⟩ | ⟨failure, -, hwrite, -⟩
      · rw [hleft] at hread
        cases hread
      · rw [hleft] at hwrite
        cases hwrite
    · obtain ⟨rfl, rfl⟩ := Prod.mk.inj (List.mem_singleton.1 hmem)
      obtain rfl : s' = st' := by simpa [hs] using hst
      exact hp

/-- A read of a run happened at the top of the loop and was possible there. -/
theorem read_possible {st : BodyLoop} {n : Nat} {r : ReadEnd}
    (h : Run step (start buffer parser chunked) tr s) (hmem : (st, BodyEvent.read n r) ∈ tr) :
    st.point = .reading ∧ r.Possible n bufferSize st.parser.rest := by
  obtain ⟨before, -, s', -, hrun, hs⟩ := h.split hmem
  rcases step_eq_some hs with ⟨m, r', heq, hp, hr⟩ | ⟨failure, heq, -, -⟩
  · obtain ⟨rfl, rfl⟩ := BodyEvent.read.inj heq
    exact ⟨hp, (afterRead_eq_some (run_history hrun).ok hp hr).1⟩
  · cases heq

/-- In a run that ends normally every buffer but the last is full, so only the
read that ends the message can have handed over an empty one. -/
theorem stored_ne_nil_iff (h : Run step (start buffer parser chunked) tr s) (hfin : s.point = .finished) :
    (∀ w ∈ stored tr, w ≠ []) ↔ EndsStored tr := by
  have hclean := (run_relayed h hfin).noFailure
  constructor
  · intro hne st n hmem hzero
    subst hzero
    exact hne [] (List.mem_filterMap.2 ⟨_, hmem, by simp [storedBy]⟩) rfl
  · intro hlast w hw
    obtain ⟨⟨st, e⟩, hmem, hby⟩ := List.mem_filterMap.1 hw
    cases e with
    | write failure => simp [storedBy] at hby
    | read n r =>
        obtain rfl : st.parser.rest.take n = w := by simpa [storedBy] using hby
        obtain ⟨-, hposs⟩ := read_possible h hmem
        have hpos : 0 < n := by
          cases r with
          | needBuffer => rw [hposs.2.2.1 rfl]; decide
          | done => exact Nat.pos_of_ne_zero (hlast st n hmem)
          | failed message => exact absurd hmem (hclean st n message)
        have hlen : (st.parser.rest.take n).length = n := List.length_take_of_le hposs.2.1
        intro hnil
        rw [hnil, List.length_nil] at hlen
        omega

/-- As long as full buffers leave something behind, the loop never comes back
to an exhausted parser. -/
theorem rest_ne_nil (hne : parser.rest ≠ []) (h : Run step (start buffer parser chunked) tr s)
    (hleft : ∀ x ∈ tr, ∀ n, x.2 = .read n .needBuffer → n < x.1.parser.rest.length)
    (hp : s.point = .reading) : s.parser.rest ≠ [] := by
  have hinv : s.Ok ∧ (s.point = .reading ∨ (s.point = .writing ∧ s.ec = none ∧
      s.parser.isDone = false) → s.parser.rest ≠ []) := by
    refine h.invariant_of (I := fun _ s => s.Ok ∧ (s.point = .reading ∨ (s.point = .writing ∧
      s.ec = none ∧ s.parser.isDone = false) → s.parser.rest ≠ [])) hleft ⟨start_ok _ _ _, ?_⟩ ?_
    · intro _
      rw [parser_start]
      exact hne
    · intro tr s e s' hI hstep hs
      refine ⟨step_ok hI.1 hs, ?_⟩
      rcases step_eq_some hs with ⟨n, r, rfl, hp, hr⟩ | ⟨failure, rfl, hp, hw⟩
      · obtain ⟨hposs, hp', hrest, hdone, -, -, hec, -⟩ := afterRead_eq_some hI.1 hp hr
        intro hcase
        rcases hcase with hread | ⟨-, hnone, hnd⟩
        · rw [hp'] at hread
          cases hread
        · cases r with
          | needBuffer =>
              have := hstep n rfl
              rw [hrest]
              simpa using this
          | done => simp [hdone] at hnd
          | failed message => simp [hec, ReadEnd.ec, clearNeedBuffer] at hnone
      · rcases afterWrite_eq_some hI.1 hp hw with ⟨sent, message, -, rfl⟩ | ⟨-, -, rfl⟩ |
          ⟨-, -, -, rfl⟩ | ⟨-, hec, hdone, rfl⟩
        · simp
        · simp
        · simp
        · rw [loopHead_of_not_done hdone]
          exact fun _ => hI.2 (Or.inr ⟨hp, hec, hdone⟩)
  exact hinv.2 (Or.inl hp)

/-- What a message relayed to its end has put on the wire. -/
theorem wire_of_finished (hnd : parser.isDone = false)
    (h : Run step (start buffer parser chunked) tr s) (hfin : s.point = .finished) :
    wire tr = if chunked then (stored tr).flatMap chunk ++ lastChunk else parser.rest := by
  have hwire := run_wire hnd h
  have hhist := run_history h
  have hstored : stored tr = sent tr := by
    rw [← hhist.handed_eq, hhist.sent_eq (by simp [hfin]), pending_of_ne (by simp [hfin]),
      List.append_nil]
  rw [hwire.complete hfin, hstored]
  cases chunked with
  | true =>
      have henc : s.sr.encode = chunk := by
        funext w
        simp [Serializer.encode, hwire.chunked]
      simp [henc, Serializer.ending, hwire.chunked]
  | false =>
      have henc : s.sr.encode = id := by
        funext w
        simp [Serializer.encode, hwire.chunked]
      simp [henc, Serializer.ending, hwire.chunked, (run_relayed h hfin).sent_eq]

/-- The output of a message that was relayed to its end is one chunked body of
its payload exactly when the serializer is chunked and the read that ended the
message stored something; with a parser that stops at a full buffer only when
there is more to store, exactly when the serializer is chunked and the payload
is not empty. -/
theorem wire_chunkedBody_iff (hnd : parser.isDone = false)
    (h : Run step (start buffer parser chunked) tr s) (hfin : s.point = .finished) :
    (ChunkedBody parser.rest (wire tr) ↔ chunked = true ∧ EndsStored tr) ∧
      (AsksForMore tr →
        (ChunkedBody parser.rest (wire tr) ↔ chunked = true ∧ parser.rest ≠ [])) := by
  have hdone := (run_history h).ok
  simp only [Ok, hfin] at hdone
  have hiff : ChunkedBody parser.rest (wire tr) ↔ chunked = true ∧ EndsStored tr := by
    rw [wire_of_finished hnd h hfin]
    cases chunked with
    | true =>
        rw [if_pos rfl, chunkedBody_iff (run_relayed h hfin).stored_eq, stored_ne_nil_iff h hfin]
        simp
    | false => simp [not_chunkedBody_self]
  refine ⟨hiff, fun hleft => ?_⟩
  rw [hiff]
  refine and_congr_right fun _ => ?_
  -- the read that ended the message took all that was left of the payload
  obtain ⟨st, n, hmem⟩ := (run_wire hnd h).ended hdone.1
  constructor
  · intro hlast hnil
    obtain ⟨-, hposs⟩ := read_possible h hmem
    obtain ⟨before, -, -, -, hrun, -⟩ := h.split hmem
    have hrest : st.parser.rest = [] := by
      have hpayload := (run_history hrun).payload_eq
      rw [hnil] at hpayload
      exact (List.append_eq_nil_iff.1 hpayload).2
    refine hlast st n hmem ?_
    have hn := hposs.2.1
    rw [hrest] at hn
    simpa using hn
  · intro hne st n hmem hzero
    obtain ⟨hp, hposs⟩ := read_possible h hmem
    obtain ⟨before, after, -, htr, hrun, -⟩ := h.split hmem
    have hrest := rest_ne_nil hne hrun (fun x hx m heq => by
      refine hleft x.1 m ?_
      rw [htr, ← heq]
      exact List.mem_append_left _ hx) hp
    have hn := hposs.2.2.2 rfl
    rw [hzero] at hn
    exact hrest (List.length_eq_zero_iff.1 hn.symm)

end Foxy.Detail.BodyLoop
