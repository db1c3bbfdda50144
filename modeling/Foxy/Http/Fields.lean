import Foxy.X3

/-!
# Foxy.Http.Fields

The part of `boost::beast::http::basic_fields` that the proxy relies on.

The container keeps its fields in order. Names compare without regard to ASCII
case; `insert` puts a field behind the last one of its name, so that equal names
stay together, and `set` replaces all of them by one at the end. Every function
that takes an `http::field` goes through the name's text, as in Beast.

`tokenList` is `http::token_list`: a comma-separated list of tokens, read up to
the first character that fits nowhere in such a list.
-/

namespace Foxy.Http

/-! ### Text -/

/-- ASCII lower case. -/
def lower (c : UInt8) : UInt8 := UInt8.ofNat (X3.toLower c.toNat)

/-- `beast::iequals`. -/
def iequals (a b : Bytes) : Bool := a.map lower == b.map lower

@[simp] theorem iequals_self (a : Bytes) : iequals a a = true := by simp [iequals]

theorem iequals_trans {a b c : Bytes} (h : iequals a b = true) : iequals a c = iequals b c := by
  have hab : a.map lower = b.map lower := by simpa [iequals] using h
  simp [iequals, hab]

theorem iequals_comm (a b : Bytes) : iequals a b = iequals b a := by
  rw [iequals, iequals, Bool.beq_comm]

/-- `tchar` of RFC 7230. -/
def isTokenChar (c : UInt8) : Bool :=
  X3.isAlpha c.toNat || X3.isDigit c.toNat || (ascii "!#$%&'*+-.^_`|~").contains c

/-- `OWS`. -/
def isOws (c : UInt8) : Bool := c == chr ' ' || c == chr '\t'

/-- One pass of the list iterator: `token` is the token being read, `needComma`
says that no further token may start before a comma. -/
def scanTokens : Bool → Bytes → Bytes → List Bytes
  | _, token, [] => if token.isEmpty then [] else [token]
  | needComma, token, c :: s =>
    if isTokenChar c then
      if needComma then [] else scanTokens false (token ++ [c]) s
    else
      let rest :=
        if isOws c then scanTokens (needComma || !token.isEmpty) [] s
        else if c == chr ',' then scanTokens false [] s
        else []
      if token.isEmpty then rest else token :: rest

/-- The tokens of `http::token_list{value}`. -/
def tokenList (value : Bytes) : List Bytes := scanTokens false [] value

/-- `token_list::exists`. -/
def hasToken (value token : Bytes) : Bool := (tokenList value).any (iequals token)

example : tokenList (ascii "gzip , , Chunked;q, x") = [ascii "gzip", ascii "Chunked"] := by
  decide +kernel

/-! ### Fields -/

/-- The `http::field` enumerators in use. -/
inductive FieldName
  | connection | contentLength | host | keepAlive | proxyAuthenticate | proxyAuthenticationInfo
  | proxyAuthorization | proxyConnection | proxyFeatures | proxyInstruction | te | trailer
  | transferEncoding | via
  deriving Repr, DecidableEq

/-- `http::to_string`. -/
def FieldName.text : FieldName → Bytes
  | .connection => ascii "Connection"
  | .contentLength => ascii "Content-Length"
  | .host => ascii "Host"
  | .keepAlive => ascii "Keep-Alive"
  | .proxyAuthenticate => ascii "Proxy-Authenticate"
  | .proxyAuthenticationInfo => ascii "Proxy-Authentication-Info"
  | .proxyAuthorization => ascii "Proxy-Authorization"
  | .proxyConnection => ascii "Proxy-Connection"
  | .proxyFeatures => ascii "Proxy-Features"
  | .proxyInstruction => ascii "Proxy-Instruction"
  | .te => ascii "TE"
  | .trailer => ascii "Trailer"
  | .transferEncoding => ascii "Transfer-Encoding"
  | .via => ascii "Via"

/-- A field: `name_string()` and `value()`. -/
structure Field where
  name : Bytes
  value : Bytes
  deriving Repr, DecidableEq

/-- The field's `name()` is `n`. -/
def Field.is (f : Field) (n : FieldName) : Bool := iequals f.name n.text

def FieldName.all : List FieldName :=
  [.connection, .contentLength, .host, .keepAlive, .proxyAuthenticate, .proxyAuthenticationInfo,
    .proxyAuthorization, .proxyConnection, .proxyFeatures, .proxyInstruction, .te, .trailer,
    .transferEncoding, .via]

theorem FieldName.mem_all (n : FieldName) : n ∈ FieldName.all := by
  cases n <;> simp [FieldName.all]

/-- Distinct enumerators have distinct names. -/
theorem FieldName.iequals_text (m n : FieldName) : iequals m.text n.text = decide (m = n) := by
  have hall : ∀ m ∈ FieldName.all, ∀ n ∈ FieldName.all,
      iequals m.text n.text = decide (m = n) := by decide +kernel
  exact hall m m.mem_all n n.mem_all

/-- A field has at most one name. -/
theorem Field.is_of_ne {f : Field} {m n : FieldName} (h : f.is m = true) (hmn : m ≠ n) :
    f.is n = false := by
  rw [Field.is, iequals_trans h, FieldName.iequals_text]
  exact decide_eq_false hmn

/-- `basic_fields`, in iteration order. -/
abbrev Fields := List Field

namespace Fields

/-- `equal_range(n)`. -/
def equalRange (fs : Fields) (n : FieldName) : Fields := fs.filter (·.is n)

/-- `find(n)`: the first field of the name. -/
def find (fs : Fields) (n : FieldName) : Option Field := fs.find? (·.is n)

/-- `operator[]`: its value, empty where there is none. -/
def get (fs : Fields) (n : FieldName) : Bytes := ((fs.find n).map Field.value).getD []

/-- `insert(name, value)`: behind the last field of that name, else at the end. -/
def insert (name value : Bytes) : Fields → Fields
  | [] => [⟨name, value⟩]
  | f :: fs =>
    if iequals f.name name && !fs.any (iequals ·.name name) then f :: ⟨name, value⟩ :: fs
    else f :: insert name value fs

/-- `erase(n)`: all fields of the name. -/
def erase (fs : Fields) (n : FieldName) : Fields := fs.filter (!·.is n)

/-- `set(n, value)`. -/
def set (fs : Fields) (n : FieldName) (value : Bytes) : Fields := fs.erase n ++ [⟨n.text, value⟩]

/-! ### What each operation leaves under a name -/

variable (fs : Fields) (m n : FieldName) (value : Bytes)

theorem find_eq_head? : fs.find n = (fs.equalRange n).head? := by
  rw [find, equalRange, List.head?_filter]

theorem equalRange_erase :
    (fs.erase m).equalRange n = if m = n then [] else fs.equalRange n := by
  by_cases hmn : m = n
  · subst hmn
    simp [erase, equalRange, List.filter_filter]
  · rw [if_neg hmn, erase, equalRange, equalRange, List.filter_filter]
    refine List.filter_congr fun f _ => ?_
    cases hf : f.is n with
    | false => simp
    | true => simp [f.is_of_ne hf (Ne.symm hmn)]

theorem equalRange_set :
    (fs.set m value).equalRange n =
      if m = n then [⟨m.text, value⟩] else fs.equalRange n := by
  have happ : (fs.set m value).equalRange n =
      (fs.erase m).equalRange n ++ Fields.equalRange [⟨m.text, value⟩] n := by
    simp [set, equalRange]
  rw [happ, equalRange_erase]
  by_cases hmn : m = n
  · subst hmn
    simp [equalRange, Field.is]
  · have hone : Fields.equalRange [⟨m.text, value⟩] n = [] := by
      simp [equalRange, Field.is, FieldName.iequals_text, hmn]
    rw [if_neg hmn, if_neg hmn, hone, List.append_nil]

/-- `insert` puts the field somewhere, and none of its name stands behind it. -/
theorem insert_eq (name value : Bytes) :
    ∃ before after, fs = before ++ after ∧ fs.insert name value = before ++ ⟨name, value⟩ :: after ∧
      ∀ f ∈ after, iequals f.name name = false := by
  induction fs with
  | nil => exact ⟨[], [], rfl, rfl, by simp⟩
  | cons f fs ih =>
      by_cases hlast : (iequals f.name name && !fs.any (iequals ·.name name)) = true
      · rw [insert, if_pos hlast]
        simp only [Bool.and_eq_true, Bool.not_eq_true', List.any_eq_false, Bool.not_eq_true] at hlast
        exact ⟨[f], fs, rfl, rfl, hlast.2⟩
      · obtain ⟨before, after, hfs, hinsert, hafter⟩ := ih
        rw [insert, if_neg hlast]
        exact ⟨f :: before, after, by rw [hfs]; rfl, by rw [hinsert]; rfl, hafter⟩

/-- Among the fields of its own name the inserted one is the last. -/
theorem filter_insert (name value x : Bytes) :
    (fs.insert name value).filter (iequals ·.name x) =
      fs.filter (iequals ·.name x) ++ if iequals name x then [⟨name, value⟩] else [] := by
  obtain ⟨before, after, hfs, hinsert, hafter⟩ := fs.insert_eq name value
  rw [hinsert, hfs, List.filter_append, List.filter_append, List.append_assoc]
  congr 1
  by_cases hx : iequals name x = true
  · have hnone : after.filter (iequals ·.name x) = [] := by
      rw [List.filter_eq_nil_iff]
      intro f hf hfx
      have hfname : iequals f.name name = iequals x name := iequals_trans hfx
      rw [hafter f hf, iequals_comm, hx] at hfname
      cases hfname
    rw [List.filter_cons, if_pos hx, hnone, if_pos hx]
    rfl
  · rw [List.filter_cons, if_neg hx, if_neg hx, List.append_nil]

theorem equalRange_insert :
    (fs.insert m.text value).equalRange n =
      if m = n then fs.equalRange n ++ [⟨m.text, value⟩] else fs.equalRange n := by
  have hinsert := fs.filter_insert m.text value n.text
  rw [FieldName.iequals_text] at hinsert
  by_cases hmn : m = n
  · rw [decide_eq_true hmn, if_pos rfl] at hinsert
    rw [if_pos hmn]
    exact hinsert
  · rw [decide_eq_false hmn, if_neg Bool.false_ne_true, List.append_nil] at hinsert
    rw [if_neg hmn]
    exact hinsert

end Fields

end Foxy.Http
