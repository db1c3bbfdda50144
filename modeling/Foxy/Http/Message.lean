import Foxy.Http.Fields

/-!
# Foxy.Http.Message

Message headers as `boost::beast::http::message` shows them and as its parser
reads them.

The two views differ where a field may occur several times. `message::keep_alive`
and `message::chunked` look at the first Connection or Transfer-Encoding field;
the parser looks at every one of them, and it is the parser that decides how the
body is delimited.
-/

namespace Foxy.Http

/-- The methods the proxy tells apart. -/
inductive Verb
  | connect
  | head
  | options
  | other (name : Bytes)
  deriving Repr, DecidableEq

/-- The request line, less the version. -/
structure RequestLine where
  method : Verb
  target : Bytes
  deriving Repr, DecidableEq

/-- The status line, less the version. -/
structure StatusLine where
  status : Nat
  deriving Repr, DecidableEq

/-- A message header. `version` is ten times the HTTP version, as in Beast. -/
structure Header (S : Type) where
  start : S
  version : Nat
  fields : Fields
  deriving Repr, DecidableEq

abbrev Request := Header RequestLine
abbrev Response := Header StatusLine

/-! ### `message::keep_alive` and `message::chunked` -/

section Getters

variable {S : Type}

/-- `message::keep_alive()`. -/
def Header.keepAlive (h : Header S) : Bool :=
  match h.fields.find .connection with
  | none => !decide (h.version < 11)
  | some f =>
    if h.version < 11 then hasToken f.value (ascii "keep-alive")
    else !hasToken f.value (ascii "close")

/-- The last token of a value is `chunked`. -/
def endsInChunked (value : Bytes) : Bool :=
  match (tokenList value).getLast? with
  | none => false
  | some t => iequals t (ascii "chunked")

/-- `message::chunked()`. -/
def Header.chunked (h : Header S) : Bool := endsInChunked (h.fields.get .transferEncoding)

/-- `detail::filter_token_list`: the tokens that `drop` spares, separated anew. -/
def filterTokenList (value : Bytes) (drop : Bytes → Bool) : Bytes :=
  (ascii ", ").intercalate ((tokenList value).filter (!drop ·))

/-- The value `keep_alive(false)` gives the Connection field. -/
def keepAliveFalseValue (version : Nat) (value : Bytes) : Bytes :=
  if version < 11 then
    filterTokenList value fun t => iequals t (ascii "close") || iequals t (ascii "keep-alive")
  else
    let s := filterTokenList value fun t => iequals t (ascii "keep-alive")
    if s.isEmpty then ascii "close"
    else if hasToken value (ascii "close") then s
    else s ++ ascii ", close"

/-- `message::keep_alive(false)`. -/
def Header.keepAliveFalse (h : Header S) : Header S :=
  let value := keepAliveFalseValue h.version (h.fields.get .connection)
  { h with fields := if value.isEmpty then h.fields.erase .connection
                     else h.fields.set .connection value }

/-- `message::chunked(true)`: the Content-Length goes with it. -/
def Header.chunkedTrue (h : Header S) : Header S :=
  let fs :=
    match h.fields.find .transferEncoding with
    | none => h.fields.set .transferEncoding (ascii "chunked")
    | some f =>
      if endsInChunked f.value then h.fields
      else h.fields.set .transferEncoding (f.value ++ ascii ", chunked")
  { h with fields := fs.erase .contentLength }

end Getters

/-! ### The parser's view -/

/-- All transfer codings of a header, in order and in lower case: coding names
are case-insensitive. -/
def transferCodings (fs : Fields) : List Bytes :=
  ((fs.equalRange .transferEncoding).flatMap fun f => tokenList f.value).map (·.map lower)

/-- The parser decodes chunks: some Transfer-Encoding field ends in `chunked`. -/
def parsedChunked (fs : Fields) : Bool :=
  (fs.equalRange .transferEncoding).any fun f => endsInChunked f.value

/-- A decimal number, nothing else. -/
def declaredLength (value : Bytes) : Option Nat :=
  if value.isEmpty || value.any (!X3.isDigit ·.toNat) then none
  else some (value.foldl (fun n c => 10 * n + (c.toNat - 0x30)) 0)

/-- The length the first Content-Length field declares. -/
def contentLength (fs : Fields) : Option Nat :=
  (fs.find .contentLength).bind fun f => declaredLength f.value

/-- How a body is delimited. -/
inductive Framing
  | chunked
  | length (n : Nat)
  /-- Neither way: a request has no body then, a response ends with its connection. -/
  | unframed
  deriving Repr, DecidableEq

/-- The framing a header declares. -/
def framing (fs : Fields) : Framing :=
  if parsedChunked fs then .chunked
  else match contentLength fs with
    | some n => .length n
    | none => .unframed

/-- What the parser refuses to read: a Content-Length beside `chunked`, a
Content-Length that is no number, two of them that differ. -/
structure Accepted (fs : Fields) : Prop where
  exclusive : parsedChunked fs = true → fs.equalRange .contentLength = []
  lengths : ∀ f ∈ fs.equalRange .contentLength,
    (declaredLength f.value).isSome ∧ declaredLength f.value = contentLength fs

instance (fs : Fields) : Decidable (Accepted fs) :=
  decidable_of_iff
    ((parsedChunked fs = true → fs.equalRange .contentLength = []) ∧
      ∀ f ∈ fs.equalRange .contentLength,
        (declaredLength f.value).isSome ∧ declaredLength f.value = contentLength fs)
    ⟨fun h => ⟨h.1, h.2⟩, fun h => ⟨h.exclusive, h.lengths⟩⟩

/-- A Connection or Proxy-Connection field holds the option. -/
def hasOption (fs : Fields) (option : Bytes) : Bool :=
  fs.any fun f => (f.is .connection || f.is .proxyConnection) && hasToken f.value option

/-- `parser::keep_alive()` for a request. -/
def Header.parsedKeepAlive (h : Request) : Bool :=
  if h.version < 11 then hasOption h.fields (ascii "keep-alive")
  else !hasOption h.fields (ascii "close")

/-- A request whose parser is done with the header alone. -/
def Request.headerOnly (h : Request) : Bool :=
  match framing h.fields with
  | .chunked => false
  | .length n => n == 0
  | .unframed => true

/-- A response without a body, whatever its fields say. -/
def Response.bodiless (h : Response) : Bool :=
  h.start.status / 100 == 1 || h.start.status == 204 || h.start.status == 304

/-- A response whose parser is done with the header alone. -/
def Response.headerOnly (h : Response) : Bool :=
  h.bodiless || framing h.fields == .length 0

/-- A response read until the remote closes its connection. -/
def Response.needEof (h : Response) : Bool := !h.bodiless && framing h.fields == .unframed

/-! ### Framing -/

theorem contentLength_eq_none {fs : Fields} (h : fs.equalRange .contentLength = []) :
    contentLength fs = none := by
  simp [contentLength, Fields.find_eq_head?, h]

end Foxy.Http
