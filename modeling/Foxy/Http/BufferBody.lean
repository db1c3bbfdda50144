import Foxy.Lib.Framed
import Foxy.X3

/-!
# Foxy.Http.BufferBody

`boost::beast::http::buffer_body` with its reader and writer, and the serializer
over it.

The body struct describes a caller's buffer. Reading, it is where the next bytes
go: `data` advances and `size` shrinks by what was stored. Writing, it is what to
send: `[data, data + size)` once, and then the writer asks for another buffer as
long as `more` is set.
-/

namespace Foxy.Http

/-- `error_code`: the condition the loops look for, and everything else. -/
inductive Error
  | needBuffer
  | failure (message : Bytes)
  deriving Repr, DecidableEq

/-- `std::array<char, 2048>::size`. -/
def bufferSize : Nat := 2048

/-- `std::array<char, 2048>`. -/
def Buffer := { b : Bytes // b.length = bufferSize }

namespace Buffer

/-- `[off, off + n)`. -/
def slice (b : Buffer) (off n : Nat) : Bytes := (b.1.drop off).take n

/-- Overwrite from `off` on. -/
def store (b : Buffer) (off : Nat) (w : Bytes) : Buffer :=
  ⟨(b.1.take off ++ w ++ b.1.drop (off + w.length)).take bufferSize, by
    have := b.2
    simp only [List.length_take, List.length_append, List.length_drop]
    omega⟩

/-- What was stored is what is there. -/
theorem slice_store (b : Buffer) {w : Bytes} (hw : w.length ≤ bufferSize) :
    (b.store 0 w).slice 0 w.length = w := by
  simp only [store, slice, List.take_zero, List.nil_append, List.drop_zero, List.take_take]
  rw [Nat.min_eq_left hw, Nat.zero_add, List.take_left]

end Buffer

/-- `buffer_body::value_type`; `data` is a position in the buffer, or null. -/
structure BufferBody where
  data : Option Nat := none
  size : Nat := 0
  more : Bool := true
  deriving Repr, DecidableEq

/-- The bytes a body with its data in `buffer` describes, `none` for null. -/
def BufferBody.bytes (body : BufferBody) (buffer : Buffer) : Option Bytes :=
  body.data.map fun off => buffer.slice off body.size

/-! ### The parser with its reader -/

/-- A parser behind its header: the part of the payload it has not delivered yet
and `is_done()`. -/
structure Source where
  rest : Bytes
  isDone : Bool
  done_rest : isDone = true → rest = []

/-- How a read ends: the buffer is full, the message is complete, or an error. -/
inductive ReadEnd
  | needBuffer
  | done
  | failed (message : Bytes)
  deriving Repr, DecidableEq

/-- The error code of a read. -/
def ReadEnd.ec : ReadEnd → Option Error
  | .needBuffer => some .needBuffer
  | .done => none
  | .failed message => some (.failure message)

/-- The reads of `n` bytes into `size` that can happen: they fit, and the ending
is true. -/
def ReadEnd.Possible (e : ReadEnd) (n size : Nat) (rest : Bytes) : Prop :=
  n ≤ size ∧ n ≤ rest.length ∧ (e = .needBuffer → n = size) ∧ (e = .done → n = rest.length)

instance (e : ReadEnd) (n size : Nat) (rest : Bytes) : Decidable (e.Possible n size rest) :=
  inferInstanceAs (Decidable (_ ∧ _ ∧ _ ∧ _))

/-- The parser after such a read. -/
def Source.take {size : Nat} (src : Source) (n : Nat) (e : ReadEnd)
    (h : e.Possible n size src.rest) : Source :=
  ⟨src.rest.drop n, e == .done, by
    intro hdone
    have hn : n = src.rest.length := h.2.2.2 (by simpa using hdone)
    simp [hn]⟩

/-! ### The serializer with its writer -/

/-- What `buffer_body::writer::get` answers. -/
inductive Got
  | buffer (w : Bytes) (more : Bool)
  | noBuffer
  | needBuffer
  deriving Repr, DecidableEq

/-- `buffer_body::writer::get`: the writer's `toggle_` and the answer. -/
def BufferBody.get (toggle : Bool) (body : BufferBody) (buffer : Buffer) : Bool × Got :=
  if toggle then
    if body.more then (false, .needBuffer) else (true, .noBuffer)
  else
    match body.bytes buffer with
    | some w => (true, .buffer w body.more)
    | none => (false, if body.more then .needBuffer else .noBuffer)

def crlf : Bytes := ascii "\r\n"

/-- A chunk size: lower-case hexadecimal without leading zeros. -/
def hexSize (n : Nat) : Bytes := (Nat.toDigits 16 n).map chr

/-- One chunk. -/
def chunk (w : Bytes) : Bytes := hexSize w.length ++ crlf ++ w ++ crlf

/-- The last-chunk and the CRLF that ends the body. -/
def lastChunk : Bytes := hexSize 0 ++ crlf ++ crlf

/-- The serializer, its header written. -/
structure Serializer where
  chunked : Bool
  toggle : Bool := false
  isDone : Bool := false
  deriving Repr, DecidableEq

/-- What one `async_write` comes to. -/
structure Written where
  wire : Bytes
  ec : Option Error
  sr : Serializer

/-- The bytes of a buffer on the wire. -/
def Serializer.encode (sr : Serializer) (w : Bytes) : Bytes := if sr.chunked then chunk w else w

/-- The bytes that end the body. -/
def Serializer.ending (sr : Serializer) : Bytes := if sr.chunked then lastChunk else []

/-- `async_write`, the transport permitting: buffers are written until the
serializer is done or wants another one. -/
def Serializer.write (sr : Serializer) (body : BufferBody) (buffer : Buffer) : Written :=
  if sr.isDone then ⟨[], none, sr⟩
  else
    match body.get sr.toggle buffer with
    | (t, .needBuffer) => ⟨[], some .needBuffer, { sr with toggle := t }⟩
    | (t, .noBuffer) => ⟨sr.ending, none, { sr with toggle := t, isDone := true }⟩
    | (_, .buffer w true) =>
      -- asked again, the toggled writer reports `need_buffer` and toggles back
      ⟨sr.encode w, some .needBuffer, { sr with toggle := false }⟩
    | (t, .buffer w false) => ⟨sr.encode w ++ sr.ending, none, { sr with toggle := t, isDone := true }⟩

/-! ### Chunked bodies -/

/-- `wire` is one chunked body of `payload`: non-empty chunks, then the
last-chunk, and nothing after it. -/
def ChunkedBody (payload wire : Bytes) : Prop :=
  ∃ ws : List Bytes, (∀ w ∈ ws, w ≠ []) ∧ ws.flatten = payload ∧ wire = ws.flatMap chunk ++ lastChunk

theorem digitChar_inj {a b : Nat} (ha : a < 16) (hb : b < 16)
    (h : chr a.digitChar = chr b.digitChar) : a = b := by
  have hall : ∀ a : Fin 16, ∀ b : Fin 16,
      chr (Nat.digitChar a) = chr (Nat.digitChar b) → a = b := by decide +kernel
  simpa using hall ⟨a, ha⟩ ⟨b, hb⟩ h

theorem hexSize_of_lt {n : Nat} (h : n < 16) : hexSize n = [chr n.digitChar] := by
  rw [hexSize, Nat.toDigits_of_lt_base h]
  rfl

theorem hexSize_of_le {n : Nat} (h : 16 ≤ n) :
    hexSize n = hexSize (n / 16) ++ [chr (n % 16).digitChar] := by
  rw [hexSize, Nat.toDigits_of_base_le (by decide) h, List.map_append]
  rfl

theorem hexSize_ne_nil (n : Nat) : hexSize n ≠ [] := by
  simp [hexSize, Nat.toDigits_ne_nil]

theorem hexSize_injective : Function.Injective hexSize := by
  intro m
  induction m using Nat.strongRecOn with
  | ind m ih =>
    intro n h
    by_cases hm : m < 16
    · by_cases hn : n < 16
      · rw [hexSize_of_lt hm, hexSize_of_lt hn] at h
        exact digitChar_inj hm hn (by simpa using h)
      · -- one digit against at least two
        rw [hexSize_of_lt hm, hexSize_of_le (Nat.le_of_not_lt hn)] at h
        have hlen := congrArg List.length h
        have hpos := List.length_pos_iff.2 (hexSize_ne_nil (n / 16))
        simp only [List.length_append, List.length_singleton] at hlen
        omega
    · by_cases hn : n < 16
      · rw [hexSize_of_lt hn, hexSize_of_le (Nat.le_of_not_lt hm)] at h
        have hlen := congrArg List.length h
        have hpos := List.length_pos_iff.2 (hexSize_ne_nil (m / 16))
        simp only [List.length_append, List.length_singleton] at hlen
        omega
      · rw [hexSize_of_le (Nat.le_of_not_lt hm), hexSize_of_le (Nat.le_of_not_lt hn)] at h
        obtain ⟨hdiv, hmod⟩ := List.append_inj' h rfl
        have hdiv := ih (m / 16) (by omega) hdiv
        have hmod := digitChar_inj (Nat.mod_lt m (by decide)) (Nat.mod_lt n (by decide))
          (by simpa using hmod)
        omega

theorem cr_notMem_hexSize (n : Nat) : chr '\r' ∉ hexSize n := by
  have hall : ∀ a : Fin 16, chr '\r' ≠ chr (Nat.digitChar a) := by decide +kernel
  induction n using Nat.strongRecOn with
  | ind n ih =>
    by_cases hn : n < 16
    · rw [hexSize_of_lt hn]
      simpa using hall ⟨n, hn⟩
    · rw [hexSize_of_le (Nat.le_of_not_lt hn), List.mem_append]
      intro hcase
      rcases hcase with h | h
      · exact ih (n / 16) (by omega) h
      · exact hall ⟨n % 16, Nat.mod_lt n (by decide)⟩ (by simpa using h)

/-- Chunk sizes as a spelling of lengths that ends at a CR. -/
def chunkSpelling : Lib.Spelling UInt8 := ⟨hexSize, chr '\r', hexSize_injective, cr_notMem_hexSize⟩

theorem chunk_eq_frame : chunk = chunkSpelling.frame [chr '\n'] crlf := by
  funext w
  simp [chunk, chunkSpelling, Lib.Spelling.frame, crlf, ascii]

/-- The end of a chunked body reads like an empty chunk. -/
theorem lastChunk_eq_chunk : lastChunk = chunk [] := by simp [lastChunk, chunk]

/-- A sequence of chunks with the last-chunk behind it is one chunked body only
when none of the chunks is empty: otherwise it ends early, and something is left
over. -/
theorem chunkedBody_iff {payload : Bytes} {ws : List Bytes} (h : ws.flatten = payload) :
    ChunkedBody payload (ws.flatMap chunk ++ lastChunk) ↔ ∀ w ∈ ws, w ≠ [] := by
  constructor
  · intro hbody
    obtain ⟨vs, hne, -, hwire⟩ := hbody
    rw [lastChunk_eq_chunk, ← List.flatMap_singleton chunk [], ← List.flatMap_append,
      ← List.flatMap_append, chunk_eq_frame] at hwire
    have hvs := chunkSpelling.flatMap_frame_injective _ _ hwire
    rw [List.append_cancel_right hvs]
    exact hne
  · exact fun hne => ⟨ws, hne, h, rfl⟩

/-- A payload is never its own chunked body, which is longer. -/
theorem not_chunkedBody_self (payload : Bytes) : ¬ChunkedBody payload payload := by
  intro hbody
  obtain ⟨ws, -, hflat, hwire⟩ := hbody
  have hle : ∀ ws : List Bytes, ws.flatten.length ≤ (ws.flatMap chunk).length := by
    intro ws
    induction ws with
    | nil => simp
    | cons w ws ih =>
        simp only [List.flatten_cons, List.flatMap_cons, List.length_append, chunk]
        omega
  have hlen := congrArg List.length hwire
  have hpos : 0 < lastChunk.length := by decide +kernel
  rw [List.length_append] at hlen
  have := hle ws
  rw [hflat] at this
  omega

end Foxy.Http
