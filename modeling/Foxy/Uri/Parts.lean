import Foxy.Uri.Rules

/-!
# Foxy.Uri.Parts

`foxy::basic_uri_parts` and the splitter `foxy::parse_uri` over `char`
(`foxy/uri_parts.hpp`, `src/parse_uri.cpp`).

The driver runs small grammars one after another from where the last one
stopped, each filling one member of the result. As in X3, a capture made on the
way stays in the member even where the grammar around it then fails; what undoes
it is the reset of the whole result in `parseUri`.
-/

namespace Foxy.Uri

open Peg X3

/-- A `basic_string_view<CharT>` into the text being parsed. The position is what
the iterator says: how many characters are left from the view's begin to the end
of the text, `none` for the null view. -/
structure BasicView (α : Type) where
  left : Option Nat
  chars : List α
  deriving Repr, DecidableEq

abbrev View := BasicView UInt8

/-- `string_view(nullptr, 0)`. -/
def BasicView.null {α : Type} : BasicView α := ⟨none, []⟩

/-- `foxy::basic_uri_parts<CharT>`. -/
structure BasicUriParts (α : Type) where
  scheme : BasicView α
  host : BasicView α
  port : BasicView α
  path : BasicView α
  query : BasicView α
  fragment : BasicView α
  deriving Repr, DecidableEq

abbrev UriParts := BasicUriParts UInt8

namespace BasicUriParts

variable {α : Type}

/-- The default constructor. -/
def empty : BasicUriParts α := ⟨.null, .null, .null, .null, .null, .null⟩

/-- `is_authority`. -/
def isAuthority (p : BasicUriParts α) : Bool :=
  p.scheme.chars.isEmpty && !p.host.chars.isEmpty && p.path.chars.isEmpty &&
    p.query.chars.isEmpty && p.fragment.chars.isEmpty

/-- `is_absolute`. -/
def isAbsolute (p : BasicUriParts α) : Bool := !p.scheme.chars.isEmpty && p.fragment.chars.isEmpty

end BasicUriParts

/-- `is_http` over `char`. -/
def UriParts.isHttp (p : UriParts) : Bool :=
  p.scheme.chars == ascii "http" || p.scheme.chars == ascii "https"

/-! ### Grammars with an attribute -/

section

variable {α : Type}

/-- A grammar with a `string_view` attribute: the iterator after a match and,
match or not, what the attribute then holds. -/
def BasicCapture (α : Type) := List α → BasicView α → Option (List α) × BasicView α

/-- `foxy::uri::raw[p]`: assign the slice `p` matched. -/
def raw (p : Peg α) : BasicCapture α := fun s attr =>
  match p s with
  | none => (none, attr)
  | some r => (some r, ⟨some s.length, s.take (s.length - r.length)⟩)

/-- `p >> c` for a `p` without attribute. -/
def thenCapture (p : Peg α) (c : BasicCapture α) : BasicCapture α := fun s attr =>
  match p s with
  | none => (none, attr)
  | some r => c r attr

/-- `c >> p` for a `p` without attribute. -/
def captureThen (c : BasicCapture α) (p : Peg α) : BasicCapture α := fun s attr =>
  match c s attr with
  | (none, a) => (none, a)
  | (some r, a) => (p r, a)

/-- `-c`. -/
def optCapture (c : BasicCapture α) : BasicCapture α := fun s attr =>
  match c s attr with
  | (none, a) => (some s, a)
  | (some r, a) => (some r, a)

end

/-! ### The driver -/

/-- The end of both drivers, from the query on: `return iter == end`. -/
def parseQueryFragment (iter : Bytes) (parts : UriParts) : Bool × UriParts :=
  match optCapture (thenCapture (lit "?") (raw query)) iter parts.query with
  | (none, v) => (false, { parts with query := v })
  | (some iter, v) =>
    let parts := { parts with query := v }
    match optCapture (thenCapture (lit "#") (raw fragment)) iter parts.fragment with
    | (none, v) => (false, { parts with fragment := v })
    | (some iter, v) => (iter.isEmpty, { parts with fragment := v })

/-- What both drivers do once the host is there: the port, then the path. -/
def parsePortPath (iter : Bytes) (parts : UriParts) : Bool × UriParts :=
  match optCapture (thenCapture (lit ":") (raw port)) iter parts.port with
  | (none, v) => (false, { parts with port := v })
  | (some iter, v) =>
    let parts := { parts with port := v }
    match raw pathAbempty iter parts.path with
    | (none, v) => (false, { parts with path := v })
    | (some iter, v) => parseQueryFragment iter { parts with path := v }

/-- `foxy::parse_complete`. -/
def parseComplete (uri : Bytes) (parts : UriParts) : Bool × UriParts :=
  match captureThen (raw scheme) (lit ":") uri parts.scheme with
  | (none, v) => (false, { parts with scheme := v })
  | (some old, v) =>
    let parts := { parts with scheme := v }
    match thenCapture (seq (lit "//") (opt (seq userinfo (lit "@")))) (raw host) old parts.host with
    | (some iter, v) => parsePortPath iter { parts with host := v }
    | (none, v) =>
      let parts := { parts with host := v }
      match raw pathEmpty old parts.path with
      | (none, v) => (false, { parts with path := v })
      | (some iter, v) => parseQueryFragment iter { parts with path := v }

/-- `foxy::parse_authority`. -/
def parseAuthority (uri : Bytes) (parts : UriParts) : Bool × UriParts :=
  match thenCapture (opt (seq userinfo (lit "@"))) (raw host) uri parts.host with
  | (some iter, v) => parsePortPath iter { parts with host := v }
  | (none, v) => (false, { parts with host := v })

/-- `foxy::parse_uri`. -/
def parseUri (uri : Bytes) : UriParts :=
  match parseComplete uri .empty with
  | (true, parts) => parts
  | (false, _) =>
    match parseAuthority uri .empty with
    | (true, parts) => parts
    | (false, _) => .empty

example : (parseUri (ascii "http://u@w.de:80/h?q#f")).host.chars = ascii "w.de" := by
  decide +kernel

end Foxy.Uri
