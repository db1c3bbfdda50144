import Foxy.Http.BufferBody
import Foxy.Lib.Run

/-!
# Foxy.Detail.BodyLoop

The body loop of the relay (`foxy/detail/relay.hpp`), which the source spells
out twice, once for the request and once for the response.

The coroutine suspends in two places, on a read into the 2048-byte buffer and on
a write out of it; `BodyLoop` is its state at such a point and `BodyLoop.step`
what it does when resumed. An event is the completion it is resumed with: how
much the parser stored and how the read ended, or whether the transport failed
the write.
-/

namespace Foxy.Detail

open Http Lib

/-- Where the loop is suspended, or how it was left. -/
inductive BodyPoint
  | reading
  | writing
  | finished
  /-- `goto upcall` with this `ec`. -/
  | upcall (ec : Option Error)
  deriving Repr, DecidableEq

/-- The state of the loop: `s.buffer`, the parser, the body struct, the
serializer and `s.ec`. -/
structure BodyLoop where
  point : BodyPoint
  buffer : Buffer
  parser : Source
  body : BufferBody
  sr : Serializer
  ec : Option Error

/-- What the loop is resumed with. -/
inductive BodyEvent
  /-- The read stored `n` bytes. -/
  | read (n : Nat) (e : ReadEnd)
  /-- The write went through, or failed with so many bytes sent. -/
  | write (failure : Option (Nat × Bytes))
  deriving Repr, DecidableEq

/-- `if (ec == http::error::need_buffer) { ec = {}; }`. -/
def clearNeedBuffer (ec : Option Error) : Option Error :=
  if ec = some .needBuffer then none else ec

namespace BodyLoop

/-- The loop's body from the top to its first suspension. -/
def loopHead (s : BodyLoop) : BodyLoop :=
  let s := { s with ec := none }
  if !s.parser.isDone then
    { s with point := .reading, body := { s.body with data := some 0, size := bufferSize } }
  else
    { s with point := .writing, body := { s.body with data := none, size := 0 } }

/-- The loop entered with a fresh body and serializer. -/
def start (buffer : Buffer) (parser : Source) (chunked : Bool) : BodyLoop :=
  loopHead ⟨.reading, buffer, parser, {}, { chunked := chunked }, none⟩

@[simp] theorem parser_loopHead (s : BodyLoop) : s.loopHead.parser = s.parser := by
  unfold loopHead
  dsimp only
  split <;> rfl

@[simp] theorem parser_start (buffer : Buffer) (parser : Source) (chunked : Bool) :
    (start buffer parser chunked).parser = parser := by
  simp [start]

/-- The read, and the loop from there to the write. -/
def afterRead (s : BodyLoop) (n : Nat) (e : ReadEnd) : Option BodyLoop :=
  match s.body.data with
  | none => none
  | some off =>
    if h : e.Possible n s.body.size s.parser.rest then
      let buffer := s.buffer.store off (s.parser.rest.take n)
      let parser := s.parser.take n e h
      let body := { s.body with data := some (off + n), size := s.body.size - n }
      let ec := clearNeedBuffer e.ec
      some { s with
        point := .writing
        buffer := buffer
        parser := parser
        body := ⟨some 0, bufferSize - body.size, !parser.isDone⟩
        ec := if ec.isSome then ec else s.ec }
    else none

/-- The loop from the write's completion to the next suspension or its end. -/
def resumeWrite (s : BodyLoop) (ec : Option Error) : BodyLoop :=
  let ec := clearNeedBuffer ec
  if ec.isSome || s.ec.isSome then { s with point := .upcall ec }
  else if !s.parser.isDone && !s.sr.isDone then s.loopHead
  else { s with point := .finished }

/-- The write, and the loop from there. -/
def afterWrite (s : BodyLoop) (failure : Option (Nat × Bytes)) : Option BodyLoop :=
  let w := s.sr.write s.body s.buffer
  match failure with
  | none => some ({ s with sr := w.sr }.resumeWrite w.ec)
  | some (sent, message) =>
    if sent ≤ w.wire.length then some (s.resumeWrite (some (.failure message))) else none

def step (s : BodyLoop) : BodyEvent → Option BodyLoop
  | .read n e => if s.point = .reading then s.afterRead n e else none
  | .write failure => if s.point = .writing then s.afterWrite failure else none

/-! ### One step -/

/-- Between suspensions the serializer waits for a buffer. -/
def Fresh (sr : Serializer) : Prop := sr.toggle = false ∧ sr.isDone = false

/-- What holds of a loop at each of its points. -/
def Ok (s : BodyLoop) : Prop :=
  match s.point with
  | .reading =>
    s.parser.isDone = false ∧ s.body.data = some 0 ∧ s.body.size = bufferSize ∧ s.ec = none ∧
      Fresh s.sr
  | .writing =>
    Fresh s.sr ∧ (s.ec.isSome → s.parser.isDone = false) ∧
      ((s.body.data = none ∧ s.parser.isDone = true ∧ s.body.more = true) ∨
        (s.body.data = some 0 ∧ s.body.more = !s.parser.isDone ∧
          (s.ec = none → s.parser.isDone = false → s.body.size = bufferSize)))
  | .finished => s.parser.isDone = true ∧ s.ec = none
  | .upcall ec => ec = none → s.parser.isDone = false ∧ s.ec.isSome

theorem start_ok (buffer : Buffer) (parser : Source) (chunked : Bool) :
    (start buffer parser chunked).Ok := by
  unfold start loopHead
  cases hd : parser.isDone with
  | false => simp [Ok, Fresh, hd]
  | true => simp [Ok, Fresh, hd]

/-- A read that happens: what it stored is the buffer to hand over. -/
theorem afterRead_eq_some {s s' : BodyLoop} {n : Nat} {e : ReadEnd} (hok : s.Ok)
    (hp : s.point = .reading) (h : s.afterRead n e = some s') :
    e.Possible n bufferSize s.parser.rest ∧ s'.point = .writing ∧
      s'.parser.rest = s.parser.rest.drop n ∧ s'.parser.isDone = (e == .done) ∧
      s'.body = ⟨some 0, n, !s'.parser.isDone⟩ ∧
      s'.body.bytes s'.buffer = some (s.parser.rest.take n) ∧
      s'.ec = clearNeedBuffer e.ec ∧ s'.sr = s.sr := by
  simp only [Ok, hp] at hok
  obtain ⟨-, hdata, hsize, hec, -⟩ := hok
  simp only [afterRead, hdata] at h
  by_cases hposs : e.Possible n s.body.size s.parser.rest
  · rw [dif_pos hposs, Option.some.injEq] at h
    rw [hsize] at hposs
    subst h
    have hn : bufferSize - (s.body.size - n) = n := by
      have := hposs.1
      omega
    have hlen : (s.parser.rest.take n).length = n := List.length_take_of_le hposs.2.1
    refine ⟨hposs, rfl, rfl, rfl, ?_, ?_, ?_, rfl⟩
    · simp [hn]
    · have hstore := s.buffer.slice_store (w := s.parser.rest.take n) (by rw [hlen]; exact hposs.1)
      rw [hlen] at hstore
      simp [BufferBody.bytes, hn, hstore]
    · cases hc : clearNeedBuffer e.ec with
      | none => simp [hec]
      | some err => simp
  · rw [dif_neg hposs] at h
    cases h

/-- What one write comes to: the buffer's bytes, with the end of the body behind
them when it was the last one. -/
theorem write_spec {s : BodyLoop} (hok : s.Ok) (hp : s.point = .writing) :
    (s.body.data = none ∧ s.parser.isDone = true ∧
        s.sr.write s.body s.buffer = ⟨[], some .needBuffer, s.sr⟩) ∨
      ∃ w, s.body.bytes s.buffer = some w ∧
        ((s.parser.isDone = false ∧
            s.sr.write s.body s.buffer = ⟨s.sr.encode w, some .needBuffer, s.sr⟩) ∨
          (s.parser.isDone = true ∧
            s.sr.write s.body s.buffer =
              ⟨s.sr.encode w ++ s.sr.ending, none, { s.sr with toggle := true, isDone := true }⟩)) := by
  simp only [Ok, hp, Fresh] at hok
  obtain ⟨⟨htoggle, hdone⟩, -, hbody⟩ := hok
  have hsr : ({ chunked := s.sr.chunked } : Serializer) = s.sr := by
    rw [Serializer.mk.injEq]
    exact ⟨rfl, htoggle.symm, hdone.symm⟩
  rcases hbody with ⟨hdata, hpd, hmore⟩ | ⟨hdata, hmore, -⟩
  · left
    have hnone : s.body.bytes s.buffer = none := by simp [BufferBody.bytes, hdata]
    exact ⟨hdata, hpd, by simp [Serializer.write, BufferBody.get, hdone, htoggle, hnone, hmore, hsr]⟩
  · right
    obtain ⟨w, hw⟩ : ∃ w, s.body.bytes s.buffer = some w := by simp [BufferBody.bytes, hdata]
    refine ⟨w, hw, ?_⟩
    cases hpd : s.parser.isDone with
    | false =>
        have hm : s.body.more = true := by rw [hmore, hpd]; rfl
        exact Or.inl ⟨rfl, by simp [Serializer.write, BufferBody.get, hdone, htoggle, hw, hm, hsr]⟩
    | true =>
        have hm : s.body.more = false := by rw [hmore, hpd]; rfl
        exact Or.inr ⟨rfl, by simp [Serializer.write, BufferBody.get, hdone, htoggle, hw, hm]⟩

/-- The four ways on from a write: it failed, it hid a read error, it was the
last, or the loop goes round. -/
theorem afterWrite_eq_some {s s' : BodyLoop} {failure : Option (Nat × Bytes)} (hok : s.Ok)
    (hp : s.point = .writing) (h : s.afterWrite failure = some s') :
    (∃ sent message, failure = some (sent, message) ∧
        s' = { s with point := .upcall (some (.failure message)) }) ∨
      (failure = none ∧ s.ec.isSome ∧ s' = { s with point := .upcall none }) ∨
      (failure = none ∧ s.ec = none ∧ s.parser.isDone = true ∧
        s' = { s with sr := (s.sr.write s.body s.buffer).sr, point := .finished }) ∨
      (failure = none ∧ s.ec = none ∧ s.parser.isDone = false ∧ s' = s.loopHead) := by
  have hspec := write_spec hok hp
  simp only [Ok, hp, Fresh] at hok
  obtain ⟨⟨htoggle, hsd⟩, hread, -⟩ := hok
  cases failure with
  | some f =>
      left
      obtain ⟨sent, message⟩ := f
      refine ⟨sent, message, rfl, ?_⟩
      simp only [afterWrite] at h
      by_cases hsent : sent ≤ (s.sr.write s.body s.buffer).wire.length
      · rw [if_pos hsent, Option.some.injEq] at h
        simpa [resumeWrite, clearNeedBuffer] using h.symm
      · rw [if_neg hsent] at h
        cases h
  | none =>
      right
      simp only [afterWrite, Option.some.injEq] at h
      cases hec : s.ec with
      | some err =>
          -- the read error is still there, but `ec` is the write's
          left
          have hpd : s.parser.isDone = false := hread (by simp [hec])
          rcases hspec with ⟨-, hpd', -⟩ | ⟨w, -, ⟨-, hw⟩ | ⟨hpd', -⟩⟩
          · rw [hpd] at hpd'
            cases hpd'
          · refine ⟨rfl, rfl, ?_⟩
            rw [← h, hw]
            simp [resumeWrite, clearNeedBuffer, hec]
          · rw [hpd] at hpd'
            cases hpd'
      | none =>
          right
          rcases hspec with ⟨-, hpd, hw⟩ | ⟨w, -, ⟨hpd, hw⟩ | ⟨hpd, hw⟩⟩
          · exact Or.inl ⟨rfl, rfl, hpd, by rw [← h, hw]; simp [resumeWrite, clearNeedBuffer, hec, hpd]⟩
          · exact Or.inr ⟨rfl, rfl, hpd, by
              rw [← h, hw]; simp [resumeWrite, clearNeedBuffer, hec, hpd, hsd, loopHead]⟩
          · exact Or.inl ⟨rfl, rfl, hpd, by rw [← h, hw]; simp [resumeWrite, clearNeedBuffer, hec, hpd]⟩

theorem step_eq_some {s s' : BodyLoop} {e : BodyEvent} (h : s.step e = some s') :
    (∃ n r, e = .read n r ∧ s.point = .reading ∧ s.afterRead n r = some s') ∨
      (∃ failure, e = .write failure ∧ s.point = .writing ∧ s.afterWrite failure = some s') := by
  cases e with
  | read n r =>
      simp only [step] at h
      by_cases hp : s.point = .reading
      · rw [if_pos hp] at h
        exact Or.inl ⟨n, r, rfl, hp, h⟩
      · rw [if_neg hp] at h
        cases h
  | write failure =>
      simp only [step] at h
      by_cases hp : s.point = .writing
      · rw [if_pos hp] at h
        exact Or.inr ⟨failure, rfl, hp, h⟩
      · rw [if_neg hp] at h
        cases h

theorem loopHead_of_not_done {s : BodyLoop} (h : s.parser.isDone = false) :
    s.loopHead = { s with
      ec := none, point := .reading, body := { s.body with data := some 0, size := bufferSize } } := by
  simp [loopHead, h]

theorem step_ok {s s' : BodyLoop} {e : BodyEvent} (hok : s.Ok) (h : s.step e = some s') :
    s'.Ok := by
  rcases step_eq_some h with ⟨n, r, rfl, hp, hr⟩ | ⟨failure, rfl, hp, hw⟩
  · obtain ⟨hposs, hp', hrest, hdone, hbody, -, hec, hsr⟩ := afterRead_eq_some hok hp hr
    simp only [Ok, hp] at hok
    simp only [Ok, hp']
    refine ⟨by rw [hsr]; exact hok.2.2.2.2, ?_, Or.inr ⟨by rw [hbody], by rw [hbody], ?_⟩⟩
    · cases r with
      | needBuffer => simp [hec, ReadEnd.ec, clearNeedBuffer]
      | done => simp [hec, ReadEnd.ec, clearNeedBuffer]
      | failed message => simp [hdone]
    · intro hnone hnd
      cases r with
      | needBuffer => rw [hbody]; exact hposs.2.2.1 rfl
      | done => simp [hdone] at hnd
      | failed message => simp [hec, ReadEnd.ec, clearNeedBuffer] at hnone
  · rcases afterWrite_eq_some hok hp hw with ⟨sent, message, -, rfl⟩ | ⟨-, hec, rfl⟩ |
      ⟨-, hec, hdone, rfl⟩ | ⟨-, hec, hdone, rfl⟩
    · simp [Ok]
    · simp only [Ok, hp] at hok
      simp only [Ok]
      exact fun _ => ⟨hok.2.1 hec, hec⟩
    · simp only [Ok]
      exact ⟨hdone, hec⟩
    · simp only [Ok, hp] at hok
      rw [loopHead_of_not_done hdone]
      exact ⟨hdone, rfl, rfl, rfl, hok.1⟩

/-- A parser that is done stays done. -/
theorem step_done {s s' : BodyLoop} {e : BodyEvent} (hok : s.Ok) (hd : s.parser.isDone = true)
    (h : s.step e = some s') : s'.parser.isDone = true := by
  rcases step_eq_some h with ⟨n, r, rfl, hp, hr⟩ | ⟨failure, rfl, hp, hw⟩
  · simp only [Ok, hp, hd] at hok
    cases hok.1
  · rcases afterWrite_eq_some hok hp hw with ⟨sent, message, -, rfl⟩ | ⟨-, -, rfl⟩ |
      ⟨-, -, -, rfl⟩ | ⟨-, -, hdone, -⟩
    · exact hd
    · exact hd
    · exact hd
    · rw [hd] at hdone
      cases hdone

/-! ### What a run did -/

/-- The bytes a step's read stored. -/
def storedBy : BodyLoop × BodyEvent → Option Bytes
  | (s, .read n _) => some (s.parser.rest.take n)
  | (_, .write _) => none

/-- What the parser delivered, read by read. -/
def stored (tr : List (BodyLoop × BodyEvent)) : List Bytes := tr.filterMap storedBy

/-- The buffer handed to the serializer in a state, with its `more`. -/
def handover (s : BodyLoop) : Option (Bytes × Bool) :=
  if s.point = .writing then (s.body.bytes s.buffer).map (·, s.body.more) else none

/-- The states of a run, the last one included. -/
def states (tr : List (BodyLoop × BodyEvent)) (s : BodyLoop) : List BodyLoop := tr.map Prod.fst ++ [s]

/-- The buffers handed to the serializer over a run. -/
def handed (tr : List (BodyLoop × BodyEvent)) (s : BodyLoop) : List Bytes :=
  ((states tr s).filterMap handover).map Prod.fst

/-- The buffer waiting to be written. -/
def pending (s : BodyLoop) : List Bytes := ((handover s).map Prod.fst).toList

/-- The buffer a step's write got through. -/
def sentBy : BodyLoop × BodyEvent → Option Bytes
  | (s, .write none) => s.body.bytes s.buffer
  | _ => none

/-- The buffers that were written in full. -/
def sent (tr : List (BodyLoop × BodyEvent)) : List Bytes := tr.filterMap sentBy

/-- No read of the run failed. -/
def NoFailure (tr : List (BodyLoop × BodyEvent)) : Prop :=
  ∀ st n message, (st, BodyEvent.read n (.failed message)) ∉ tr

/-- No write of the run went through over a read error. -/
def Clean (tr : List (BodyLoop × BodyEvent)) : Prop :=
  ∀ st, (st, BodyEvent.write none) ∈ tr → st.ec = none

/-- The bytes a step's write put on the wire. -/
def wireBy : BodyLoop × BodyEvent → Bytes
  | (_, .read _ _) => []
  | (s, .write none) => (s.sr.write s.body s.buffer).wire
  | (s, .write (some (sent, _))) => (s.sr.write s.body s.buffer).wire.take sent

/-- All bytes written behind the header. -/
def wire (tr : List (BodyLoop × BodyEvent)) : Bytes := tr.flatMap wireBy

variable {tr : List (BodyLoop × BodyEvent)} {s s' : BodyLoop} {e : BodyEvent}

theorem stored_snoc : stored (tr ++ [(s, e)]) = stored tr ++ (storedBy (s, e)).toList :=
  filterMap_snoc _ _ _

theorem wire_snoc : wire (tr ++ [(s, e)]) = wire tr ++ wireBy (s, e) := by simp [wire]

theorem sent_snoc : sent (tr ++ [(s, e)]) = sent tr ++ (sentBy (s, e)).toList :=
  filterMap_snoc _ _ _

theorem noFailure_snoc (h : NoFailure tr) (he : ∀ n message, e ≠ .read n (.failed message)) :
    NoFailure (tr ++ [(s, e)]) := by
  intro st n message hmem
  rcases List.mem_append.1 hmem with hmem | hmem
  · exact h st n message hmem
  · simp only [List.mem_singleton, Prod.mk.injEq] at hmem
    exact he n message hmem.2.symm

theorem clean_snoc (h : Clean tr) (he : e = .write none → s.ec = none) : Clean (tr ++ [(s, e)]) := by
  intro st hmem
  rcases List.mem_append.1 hmem with hmem | hmem
  · exact h st hmem
  · simp only [List.mem_singleton, Prod.mk.injEq] at hmem
    rw [hmem.1]
    exact he hmem.2.symm

theorem handed_snoc : handed (tr ++ [(s, e)]) s' = handed tr s ++ pending s' := by
  have hstates : states (tr ++ [(s, e)]) s' = states tr s ++ [s'] := by simp [states]
  rw [handed, hstates, filterMap_snoc, List.map_append]
  cases h : handover s' <;> simp [handed, pending, h]

theorem pending_of_ne (h : s.point ≠ .writing) : pending s = [] := by simp [pending, handover, h]

/-- The steps a run may have made once `d` bytes were delivered. -/
def Within (steps d : Nat) (s : BodyLoop) : Prop :=
  match s.point with
  | .reading => steps ≤ 2 * (d / bufferSize)
  | .writing => steps ≤ 2 * (d / bufferSize) + 1 ∧
      (s.ec = none → s.parser.isDone = false → steps + 1 ≤ 2 * (d / bufferSize))
  | _ => steps ≤ 2 * (d / bufferSize) + 2

/-- How the errors of a run show in a state. -/
def Errors (tr : List (BodyLoop × BodyEvent)) (s : BodyLoop) : Prop :=
  match s.point with
  | .reading => Clean tr ∧ NoFailure tr
  | .writing => Clean tr ∧ (s.ec = none → NoFailure tr) ∧
      (s.ec.isSome → ∃ st n message, (st, BodyEvent.read n (.failed message)) ∈ tr)
  | .finished => Clean tr ∧ NoFailure tr
  | .upcall none => ¬Clean tr ∧ ∃ st n message, (st, BodyEvent.read n (.failed message)) ∈ tr
  | .upcall (some _) => Clean tr ∧ ∃ st failure, (st, BodyEvent.write (some failure)) ∈ tr

/-- What a run has done, against the payload: every read's bytes are handed over
as one buffer, and with what is left they make the payload; what was handed over
was written, less the buffer that is waiting. -/
structure History (payload : Bytes) (tr : List (BodyLoop × BodyEvent)) (s : BodyLoop) : Prop where
  ok : s.Ok
  handed_eq : handed tr s = stored tr
  payload_eq : (stored tr).flatten ++ s.parser.rest = payload
  sent_eq : (∀ ec, s.point ≠ .upcall ec) → handed tr s = sent tr ++ pending s
  steps : Within tr.length (stored tr).flatten.length s
  errors : Errors tr s

theorem history_start (buffer : Buffer) (parser : Source) (chunked : Bool) :
    History parser.rest [] (start buffer parser chunked) := by
  refine ⟨start_ok buffer parser chunked, ?_, by simp [stored], ?_, ?_, ?_⟩
  · unfold start loopHead
    cases hd : parser.isDone <;> simp [handed, states, handover, stored, BufferBody.bytes, hd]
  · intro _
    unfold start loopHead
    cases hd : parser.isDone <;>
      simp [handed, states, handover, sent, pending, BufferBody.bytes, hd]
  · unfold start loopHead
    cases hd : parser.isDone <;> simp [Within, stored, hd]
  · unfold start loopHead
    cases hd : parser.isDone <;> simp [Errors, Clean, NoFailure, hd]

/-- The bytes of one more read: the buffer is handed over in the next state. -/
theorem history_read {payload : Bytes} {n : Nat} {r : ReadEnd} (h : History payload tr s)
    (hp : s.point = .reading) (hr : s.afterRead n r = some s') (hok' : s'.Ok) :
    History payload (tr ++ [(s, .read n r)]) s' := by
  obtain ⟨hposs, hp', hrest, hdone, hbody, hbytes, hec, -⟩ := afterRead_eq_some h.ok hp hr
  have hstored : stored (tr ++ [(s, .read n r)]) = stored tr ++ [s.parser.rest.take n] := by
    rw [stored_snoc]
    rfl
  have hpending : pending s' = [s.parser.rest.take n] := by
    simp [pending, handover, hp', hbytes]
  refine ⟨hok', ?_, ?_, ?_, ?_, ?_⟩
  · rw [handed_snoc, hpending, h.handed_eq, hstored]
  · rw [hstored, hrest, List.flatten_append, List.flatten_singleton, List.append_assoc,
      List.take_append_drop]
    exact h.payload_eq
  · intro _
    have hsent := h.sent_eq (by simp [hp])
    rw [pending_of_ne (by simp [hp]), List.append_nil] at hsent
    rw [handed_snoc, hsent, sent_snoc]
    exact congrArg (· ++ pending s') (List.append_nil _).symm
  · -- a full buffer pays for one more round
    have hlen : (s.parser.rest.take n).length = n := List.length_take_of_le hposs.2.1
    have hsteps := h.steps
    simp only [Within, hp] at hsteps
    simp only [Within, hp', hstored, List.flatten_append, List.flatten_singleton, List.length_append,
      List.length_singleton, hlen]
    have hsize : bufferSize = 2048 := rfl
    have hmono : (stored tr).flatten.length / bufferSize ≤
        ((stored tr).flatten.length + n) / bufferSize := Nat.div_le_div_right (by omega)
    refine ⟨by omega, ?_⟩
    intro hnone hnd
    cases r with
    | needBuffer =>
        have hn : n = bufferSize := hposs.2.2.1 rfl
        rw [hn, Nat.add_div_right _ (by decide)]
        omega
    | done => simp [hdone] at hnd
    | failed message => simp [hec, ReadEnd.ec, clearNeedBuffer] at hnone
  · have herr := h.errors
    simp only [Errors, hp] at herr
    simp only [Errors, hp']
    refine ⟨clean_snoc herr.1 (by simp), ?_, ?_⟩
    · intro hnone
      refine noFailure_snoc herr.2 ?_
      intro m message heq
      obtain ⟨rfl, rfl⟩ := BodyEvent.read.inj heq
      simp [hec, ReadEnd.ec, clearNeedBuffer] at hnone
    · intro hsome
      cases r with
      | needBuffer => simp [hec, ReadEnd.ec, clearNeedBuffer] at hsome
      | done => simp [hec, ReadEnd.ec, clearNeedBuffer] at hsome
      | failed message => exact ⟨s, n, message, by simp⟩

theorem history_write {payload : Bytes} {failure : Option (Nat × Bytes)} (h : History payload tr s)
    (hp : s.point = .writing) (hw : s.afterWrite failure = some s') (hok' : s'.Ok) :
    History payload (tr ++ [(s, .write failure)]) s' := by
  have hstored : stored (tr ++ [(s, .write failure)]) = stored tr := by
    rw [stored_snoc]
    exact List.append_nil _
  have hsent := h.sent_eq (by simp [hp])
  have hpending : pending s = (s.body.bytes s.buffer).toList := by
    cases hb : s.body.bytes s.buffer <;> simp [pending, handover, hp, hb]
  have hsteps := h.steps
  have herr := h.errors
  simp only [Within, hp] at hsteps
  simp only [Errors, hp] at herr
  have hfail : s.ec = none → NoFailure (tr ++ [(s, .write failure)]) := fun hec =>
    noFailure_snoc (herr.2.1 hec) (by simp)
  -- what the four ways on have in common: the parser is untouched and nothing waits
  have hgoal : ∀ s'' : BodyLoop, s''.Ok → s''.parser = s.parser → s''.point ≠ .writing →
      ((∀ ec, s''.point ≠ .upcall ec) → failure = none) →
      Within (tr.length + 1) (stored tr).flatten.length s'' →
      Errors (tr ++ [(s, .write failure)]) s'' → History payload (tr ++ [(s, .write failure)]) s'' := by
    intro s'' hok'' hparser hne hnone hwithin herrors
    refine ⟨hok'', ?_, ?_, ?_, by rw [hstored, List.length_append]; exact hwithin, herrors⟩
    · rw [handed_snoc, pending_of_ne hne, h.handed_eq, hstored, List.append_nil]
    · rw [hstored, hparser]
      exact h.payload_eq
    · intro hup
      obtain rfl := hnone hup
      rw [handed_snoc, pending_of_ne hne, hsent, sent_snoc, hpending]
      rfl
  rcases afterWrite_eq_some h.ok hp hw with ⟨sent, message, rfl, rfl⟩ | ⟨rfl, hec, rfl⟩ |
    ⟨rfl, hec, hdone, rfl⟩ | ⟨rfl, hec, hdone, rfl⟩
  · refine hgoal _ hok' rfl (by simp) (by simp) (by simp only [Within]; omega) ?_
    exact ⟨clean_snoc herr.1 (by simp), s, (sent, message), by simp⟩
  · refine hgoal _ hok' rfl (by simp) (by simp) (by simp only [Within]; omega) ⟨?_, ?_⟩
    · intro hclean
      rw [hclean s (by simp)] at hec
      cases hec
    · obtain ⟨st, n, message, hmem⟩ := herr.2.2 hec
      exact ⟨st, n, message, List.mem_append_left _ hmem⟩
  · exact hgoal _ hok' rfl (by simp) (fun _ => rfl) (by simp only [Within]; omega)
      ⟨clean_snoc herr.1 fun _ => hec, hfail hec⟩
  · rw [loopHead_of_not_done hdone] at hok' ⊢
    exact hgoal _ hok' rfl (by simp) (fun _ => rfl) (hsteps.2 hec hdone)
      ⟨clean_snoc herr.1 fun _ => hec, hfail hec⟩

theorem run_history {buffer : Buffer} {parser : Source} {chunked : Bool}
    (h : Run step (start buffer parser chunked) tr s) : History parser.rest tr s := by
  refine h.invariant (history_start buffer parser chunked) ?_
  intro tr s e s' _ hist hs
  have hok' := step_ok hist.ok hs
  rcases step_eq_some hs with ⟨n, r, rfl, hp, hr⟩ | ⟨failure, rfl, hp, hw⟩
  · exact history_read hist hp hr hok'
  · exact history_write hist hp hw hok'

/-- A body relayed to its end: all of it was stored and written, no read failed
and no error was passed over. -/
structure Relayed (payload : Bytes) (tr : List (BodyLoop × BodyEvent)) : Prop where
  stored_eq : (stored tr).flatten = payload
  sent_eq : (sent tr).flatten = payload
  noFailure : NoFailure tr
  clean : Clean tr

theorem noFailure_append {tr' : List (BodyLoop × BodyEvent)} (h : NoFailure tr)
    (h' : NoFailure tr') : NoFailure (tr ++ tr') := by
  intro st n message hmem
  rcases List.mem_append.1 hmem with hmem | hmem
  · exact h st n message hmem
  · exact h' st n message hmem

theorem clean_append_iff {tr' : List (BodyLoop × BodyEvent)} :
    Clean (tr ++ tr') ↔ Clean tr ∧ Clean tr' := by
  constructor
  · intro h
    exact ⟨fun st hmem => h st (List.mem_append_left _ hmem),
      fun st hmem => h st (List.mem_append_right _ hmem)⟩
  · intro h st hmem
    rcases List.mem_append.1 hmem with hmem | hmem
    · exact h.1 st hmem
    · exact h.2 st hmem

theorem run_relayed {buffer : Buffer} {parser : Source} {chunked : Bool}
    (h : Run step (start buffer parser chunked) tr s) (hfin : s.point = .finished) :
    Relayed parser.rest tr := by
  have hist := run_history h
  have hok := hist.ok
  have herr := hist.errors
  have hpayload := hist.payload_eq
  have hsent := hist.sent_eq (by simp [hfin])
  simp only [Ok, hfin] at hok
  simp only [Errors, hfin] at herr
  rw [s.parser.done_rest hok.1, List.append_nil] at hpayload
  rw [hist.handed_eq, pending_of_ne (by simp [hfin]), List.append_nil] at hsent
  exact ⟨hpayload, by rw [← hsent]; exact hpayload, herr.2, herr.1⟩

/-! ### Payload fidelity -/

/-- `more` says whether the parser has anything left. -/
theorem handover_more {w : Bytes} {more : Bool} (hok : s.Ok) (h : handover s = some (w, more)) :
    more = !s.parser.isDone := by
  simp only [handover] at h
  by_cases hp : s.point = .writing
  · rw [if_pos hp, Option.map_eq_some_iff] at h
    obtain ⟨w', hbytes, heq⟩ := h
    obtain ⟨-, rfl⟩ := Prod.mk.inj heq
    simp only [Ok, hp] at hok
    rcases hok.2.2 with ⟨hdata, -⟩ | ⟨-, hmore, -⟩
    · simp [BufferBody.bytes, hdata] at hbytes
    · exact hmore
  · rw [if_neg hp] at h
    cases h

/-- Wherever the loop is suspended something can resume it. -/
theorem ended_of_stuck (hok : s.Ok) (h : ∀ e, s.step e = none) :
    s.point = .finished ∨ ∃ ec, s.point = .upcall ec := by
  cases hp : s.point with
  | reading =>
      have hposs : (ReadEnd.failed []).Possible 0 s.body.size s.parser.rest :=
        ⟨Nat.zero_le _, Nat.zero_le _, by simp, by simp⟩
      simp only [Ok, hp] at hok
      have hread := h (.read 0 (.failed []))
      simp only [step, hp, if_true, afterRead, hok.2.1] at hread
      rw [dif_pos hposs] at hread
      cases hread
  | writing =>
      have hwrite := h (.write none)
      simp [step, hp, afterWrite] at hwrite
  | finished => exact Or.inl rfl
  | upcall ec => exact Or.inr ⟨ec, rfl⟩

/-- Only an error makes the loop jump. -/
theorem failed_of_upcall {ec : Option Error} (h : Errors tr s) (hp : s.point = .upcall ec) :
    (∃ st n message, (st, BodyEvent.read n (.failed message)) ∈ tr) ∨
      ∃ st failure, (st, BodyEvent.write (some failure)) ∈ tr := by
  simp only [Errors, hp] at h
  cases ec with
  | none => exact Or.inl h.2
  | some error => exact Or.inr h.2

/-- For every payload and every way it is delivered: the buffers handed to the
serializer are, in order, what the parser stored, and with what it still holds
they are the payload; `more` is false exactly for the buffer after which the
parser is done; the loop makes at most two steps for every full buffer and two
more, and gets stuck nowhere; when it ends normally the whole payload was
handed over, and only a failed read or write makes it end otherwise. -/
theorem run_fidelity {buffer : Buffer} {parser : Source} {chunked : Bool}
    (h : Run step (start buffer parser chunked) tr s) :
    handed tr s = stored tr ∧
      (handed tr s).flatten ++ s.parser.rest = parser.rest ∧
      (∀ st ∈ states tr s, ∀ w more, handover st = some (w, more) →
        more = !st.parser.isDone) ∧
      tr.length ≤ 2 * (parser.rest.length / bufferSize + 1) ∧
      ((∀ e, s.step e = none) → s.point = .finished ∨ ∃ ec, s.point = .upcall ec) ∧
      (s.point = .finished → (handed tr s).flatten = parser.rest) ∧
      (∀ ec, s.point = .upcall ec →
        (∃ st n message, (st, BodyEvent.read n (.failed message)) ∈ tr) ∨
          ∃ st failure, (st, BodyEvent.write (some failure)) ∈ tr) := by
  have hist := run_history h
  have hpayload : (handed tr s).flatten ++ s.parser.rest = parser.rest := by
    rw [hist.handed_eq]
    exact hist.payload_eq
  refine ⟨hist.handed_eq, hpayload, ?_, ?_, ended_of_stuck hist.ok, ?_,
    fun _ => failed_of_upcall hist.errors⟩
  · intro st hst w more hover
    have hst' : st.Ok := by
      rcases List.mem_append.1 hst with hmem | hmem
      · obtain ⟨x, hx, rfl⟩ := List.mem_map.1 hmem
        obtain ⟨before, -, -, -, hrun, -⟩ := h.split hx
        exact (run_history hrun).ok
      · rw [List.mem_singleton.1 hmem]
        exact hist.ok
    exact handover_more hst' hover
  · have hle : (stored tr).flatten.length / bufferSize ≤ parser.rest.length / bufferSize := by
      refine Nat.div_le_div_right ?_
      rw [← hist.payload_eq, List.length_append]
      omega
    have hsteps := hist.steps
    unfold Within at hsteps
    split at hsteps <;> omega
  · intro hfin
    have hdone := hist.ok
    simp only [Ok, hfin] at hdone
    rw [s.parser.done_rest hdone.1, List.append_nil] at hpayload
    exact hpayload

/-- A buffer of zeros. -/
def zeros : Buffer := ⟨List.replicate bufferSize 0, List.length_replicate⟩

/-- Three bytes, delivered at once and written. -/
theorem run_fidelity_three :
    ∃ tr s, Run step (start zeros ⟨[1, 2, 3], false, by simp⟩ false) tr s ∧
      s.point = .finished ∧ (handed tr s).flatten = [1, 2, 3] := by
  obtain ⟨tr, s, hex, hp⟩ : ∃ tr s,
      exec step (start zeros ⟨[1, 2, 3], false, by simp⟩ false) [.read 3 .done, .write none] =
        some (tr, s) ∧ s.point = .finished := ⟨_, _, rfl, rfl⟩
  have hrun := Run.of_exec hex
  exact ⟨tr, s, hrun, hp, (run_fidelity hrun).2.2.2.2.2.1 hp⟩

end BodyLoop

end Foxy.Detail
