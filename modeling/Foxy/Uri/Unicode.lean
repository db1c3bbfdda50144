import Foxy.Uri.Parts
import Foxy.Uri.UnicodeRules

/-!
# Foxy.Uri.Unicode

`parse_uri`, `parse_complete` and `parse_authority` over `char32_t`
(`src/parse_uri.cpp`), and their agreement with the functions over `char` on
ASCII text.

Rules and drivers are there twice, written out by hand. On ASCII each wide rule
does what its namesake does (`Peg.Agrees`, rule by rule), a capture then takes
the same slice, and the two drivers stay in step.
-/

namespace Foxy.Uri

open Peg X3

/-! ### The driver over `char32_t` -/

namespace Unicode

variable (cls : UnicodeClasses)

/-- `basic_uri_parts<char32_t>`. -/
abbrev WideParts := BasicUriParts UInt32

/-- `is_http` over `char32_t`. -/
def isHttp (p : WideParts) : Bool :=
  p.scheme.chars == "http".toList.map Char.val || p.scheme.chars == "https".toList.map Char.val

/-- The end of both drivers, from the query on: `return iter == end`. -/
def parseQueryFragment (iter : List UInt32) (parts : WideParts) : Bool × WideParts :=
  match optCapture (thenCapture (lit "?") (raw (query cls))) iter parts.query with
  | (none, v) => (false, { parts with query := v })
  | (some iter, v) =>
    let parts := { parts with query := v }
    match optCapture (thenCapture (lit "#") (raw (fragment cls))) iter parts.fragment with
    | (none, v) => (false, { parts with fragment := v })
    | (some iter, v) => (iter.isEmpty, { parts with fragment := v })

/-- What both drivers do once the host is there: the port, then the path. -/
def parsePortPath (iter : List UInt32) (parts : WideParts) : Bool × WideParts :=
  match optCapture (thenCapture (lit ":") (raw (port cls))) iter parts.port with
  | (none, v) => (false, { parts with port := v })
  | (some iter, v) =>
    let parts := { parts with port := v }
    match raw (pathAbempty cls) iter parts.path with
    | (none, v) => (false, { parts with path := v })
    | (some iter, v) => parseQueryFragment cls iter { parts with path := v }

/-- `foxy::parse_complete`. -/
def parseComplete (uri : List UInt32) (parts : WideParts) : Bool × WideParts :=
  match captureThen (raw (scheme cls)) (lit ":") uri parts.scheme with
  | (none, v) => (false, { parts with scheme := v })
  | (some old, v) =>
    let parts := { parts with scheme := v }
    match thenCapture (seq (lit "//") (opt (seq (userinfo cls) (lit "@")))) (raw (host cls)) old
        parts.host with
    | (some iter, v) => parsePortPath cls iter { parts with host := v }
    | (none, v) =>
      let parts := { parts with host := v }
      match raw (pathEmpty cls) old parts.path with
      | (none, v) => (false, { parts with path := v })
      | (some iter, v) => parseQueryFragment cls iter { parts with path := v }

/-- `foxy::parse_authority`. -/
def parseAuthority (uri : List UInt32) (parts : WideParts) : Bool × WideParts :=
  match thenCapture (opt (seq (userinfo cls) (lit "@"))) (raw (host cls)) uri parts.host with
  | (some iter, v) => parsePortPath cls iter { parts with host := v }
  | (none, v) => (false, { parts with host := v })

/-- `foxy::parse_uri`. -/
def parseUri (uri : List UInt32) : WideParts :=
  match parseComplete cls uri .empty with
  | (true, parts) => parts
  | (false, _) =>
    match parseAuthority cls uri .empty with
    | (true, parts) => parts
    | (false, _) => .empty

end Unicode

/-! ### Rules on ASCII -/

/-- The code points of an ASCII string. -/
def codePoints (s : Bytes) : List UInt32 := s.map UInt8.toUInt32

def IsAscii (c : UInt8) : Prop := c.toNat < 128

/-- The classes of the two encodings coincide on ASCII. -/
structure CoincideOnAscii (cls : UnicodeClasses) : Prop where
  alpha : ∀ c : UInt8, IsAscii c → cls.isAlpha c.toUInt32 = isAlpha c.toNat
  digit : ∀ c : UInt8, IsAscii c → cls.isDigit c.toUInt32 = isDigit c.toNat
  xdigit : ∀ c : UInt8, IsAscii c → cls.isXdigit c.toUInt32 = isXdigit c.toNat

/-- A rule over `char` and one over `char32_t` agree on ASCII. -/
abbrev Same (p : Peg UInt8) (p' : Peg UInt32) : Prop := Agrees UInt8.toUInt32 IsAscii p p'

theorem charOf_same (set : String) : Same (charOf set) (charOf set) :=
  agrees_satisfy fun c _ => by
    show charSet (codes set) c.toUInt32.toNat = charSet (codes set) c.toNat
    rw [UInt8.toNat_toUInt32]

theorem lit_same (l : String) : Same (lit l) (lit l) := by
  refine agrees_tokens ?_
  rw [List.forall₂_map_left_iff, List.forall₂_map_right_iff]
  refine List.forall₂_same.2 fun n _ c _ => ?_
  show (c.toUInt32.toNat == n) = (c.toNat == n)
  rw [UInt8.toNat_toUInt32]

section
variable {cls : UnicodeClasses} (hcls : CoincideOnAscii cls)
include hcls

theorem alpha_same : Same alpha cls.alpha := agrees_satisfy hcls.alpha

theorem digit_same : Same digit cls.digit := agrees_satisfy hcls.digit

theorem xdigit_same : Same xdigit cls.xdigit := agrees_satisfy hcls.xdigit

theorem unreserved_same : Same unreserved (Unicode.unreserved cls) :=
  agrees_alt (agrees_alt (alpha_same hcls) (digit_same hcls)) (charOf_same _)

theorem pctEncoded_same : Same pctEncoded (Unicode.pctEncoded cls) :=
  agrees_seq (agrees_seq (lit_same _) (xdigit_same hcls)) (xdigit_same hcls)

theorem nameChar_same : Same (alt (alt unreserved pctEncoded) subDelims)
    (alt (alt (Unicode.unreserved cls) (Unicode.pctEncoded cls)) Unicode.subDelims) :=
  agrees_alt (agrees_alt (unreserved_same hcls) (pctEncoded_same hcls)) (charOf_same _)

theorem pchar_same : Same pchar (Unicode.pchar cls) :=
  agrees_alt (nameChar_same hcls) (charOf_same _)

theorem query_same : Same query (Unicode.query cls) :=
  agrees_star (agrees_alt (pchar_same hcls) (charOf_same _))

theorem fragment_same : Same fragment (Unicode.fragment cls) :=
  agrees_star (agrees_alt (pchar_same hcls) (charOf_same _))

theorem pathEmpty_same : Same pathEmpty (Unicode.pathEmpty cls) := agrees_times (pchar_same hcls) 0

theorem pathAbempty_same : Same pathAbempty (Unicode.pathAbempty cls) :=
  agrees_star (agrees_seq (charOf_same _) (agrees_star (pchar_same hcls)))

theorem regName_same : Same regName (Unicode.regName cls) := agrees_star (nameChar_same hcls)

theorem decOctet_same : Same decOctet (Unicode.decOctet cls) := by
  have hd := digit_same hcls
  refine agrees_alt (agrees_alt (agrees_alt (agrees_alt ?_ ?_) ?_) ?_) hd
  · exact agrees_seq (lit_same _) (charOf_same _)
  · exact agrees_seq (agrees_seq (lit_same _) (charOf_same _)) hd
  · exact agrees_seq (lit_same _) (agrees_times hd 2)
  · exact agrees_seq (charOf_same _) hd

theorem ipV4Address_same : Same ipV4Address (Unicode.ipV4Address cls) := by
  have hoctet := decOctet_same hcls
  have hdot := lit_same "."
  exact agrees_seq (agrees_seq (agrees_seq (agrees_seq (agrees_seq (agrees_seq hoctet hdot) hoctet)
    hdot) hoctet) hdot) hoctet

theorem h16_same : Same h16 (Unicode.h16 cls) := agrees_between (xdigit_same hcls) 1 4

theorem ls32_same : Same ls32 (Unicode.ls32 cls) :=
  agrees_alt (agrees_seq (agrees_seq (h16_same hcls) (lit_same _)) (h16_same hcls))
    (ipV4Address_same hcls)

/-- All nine alternatives. -/
theorem ipV6Address_same : Same ipV6Address (Unicode.ipV6Address cls) := by
  have hh := h16_same hcls
  have hl := ls32_same hcls
  have hc := lit_same ":"
  have hcc := lit_same "::"
  have hgroup (n : Nat) : Same (times n (seq h16 (lit ":")))
      (times n (seq (Unicode.h16 cls) (lit ":"))) := agrees_times (agrees_seq hh hc) n
  have hlead (n : Nat) : Same (opt (seq h16 (between 0 n (seq (lit ":") h16))))
      (opt (seq (Unicode.h16 cls) (between 0 n (seq (lit ":") (Unicode.h16 cls))))) :=
    agrees_opt (agrees_seq hh (agrees_between (agrees_seq hc hh) 0 n))
  refine agrees_alt (agrees_alt (agrees_alt (agrees_alt (agrees_alt (agrees_alt (agrees_alt
    (agrees_alt ?_ ?_) ?_) ?_) ?_) ?_) ?_) ?_) ?_
  · exact agrees_seq (hgroup 6) hl
  · exact agrees_seq (agrees_seq hcc (hgroup 5)) hl
  · exact agrees_seq (agrees_seq (agrees_seq (agrees_opt hh) hcc) (hgroup 4)) hl
  · exact agrees_seq (agrees_seq (agrees_seq
      (agrees_opt (agrees_seq (agrees_between (agrees_seq hh hc) 0 1) hh)) hcc) (hgroup 3)) hl
  · exact agrees_seq (agrees_seq (hlead 2) hcc)
      (agrees_seq hl (agrees_times (agrees_seq hc hh) 2))
  · exact agrees_seq (agrees_seq (agrees_seq (agrees_seq (hlead 3) hcc) hh) hc) hl
  · exact agrees_seq (agrees_seq (hlead 4) hcc) hl
  · exact agrees_seq (agrees_seq (hlead 5) hcc) hh
  · exact agrees_seq (hlead 6) hcc

theorem ipVfuture_same : Same ipVfuture (Unicode.ipVfuture cls) :=
  agrees_seq (agrees_seq (agrees_seq (lit_same _) (agrees_plus (xdigit_same hcls))) (lit_same _))
    (agrees_plus (agrees_alt (agrees_alt (unreserved_same hcls) (charOf_same _)) (lit_same _)))

theorem ipLiteral_same : Same ipLiteral (Unicode.ipLiteral cls) :=
  agrees_seq (agrees_seq (lit_same _) (agrees_alt (ipV6Address_same hcls) (ipVfuture_same hcls)))
    (lit_same _)

theorem port_same : Same port (Unicode.port cls) := agrees_star (digit_same hcls)

theorem host_same : Same host (Unicode.host cls) :=
  agrees_alt (agrees_alt (ipLiteral_same hcls) (ipV4Address_same hcls)) (regName_same hcls)

theorem userinfo_same : Same userinfo (Unicode.userinfo cls) :=
  agrees_star (agrees_alt (nameChar_same hcls) (lit_same _))

theorem scheme_same : Same scheme (Unicode.scheme cls) :=
  agrees_seq (alpha_same hcls) (agrees_star
    (agrees_alt (agrees_alt (alpha_same hcls) (digit_same hcls)) (charOf_same _)))

end

/-! ### Captures on ASCII -/

/-- The view of the same slice. -/
def BasicView.map {α β : Type} (f : α → β) (v : BasicView α) : BasicView β :=
  ⟨v.left, v.chars.map f⟩

/-- The same six slices. -/
def BasicUriParts.map {α β : Type} (f : α → β) (p : BasicUriParts α) : BasicUriParts β :=
  ⟨p.scheme.map f, p.host.map f, p.port.map f, p.path.map f, p.query.map f, p.fragment.map f⟩

/-- On ASCII the two captures move alike and leave the view of the same slice. -/
def SameCapture (c : BasicCapture UInt8) (c' : BasicCapture UInt32) : Prop :=
  ∀ s v, (∀ b ∈ s, IsAscii b) →
    c' (codePoints s) (v.map UInt8.toUInt32) =
      ((c s v).1.map codePoints, (c s v).2.map UInt8.toUInt32) ∧
    ∀ r ∈ (c s v).1, ∀ b ∈ r, IsAscii b

section
variable {c : BasicCapture UInt8} {c' : BasicCapture UInt32} {p : Peg UInt8} {p' : Peg UInt32}

theorem raw_same (h : Same p p') : SameCapture (raw p) (raw p') := by
  intro s v hs
  obtain ⟨heq, hleft⟩ := h s hs
  simp only [raw, codePoints, heq]
  cases hp : p s with
  | none => exact ⟨rfl, by simp⟩
  | some r =>
      refine ⟨?_, ?_⟩
      · simp only [Option.map_some, BasicView.map, List.length_map, List.map_take]
        rfl
      · rintro t ⟨⟩
        exact hleft r hp

theorem SameCapture.after (h : SameCapture c c') (hp : Same p p') :
    SameCapture (thenCapture p c) (thenCapture p' c') := by
  intro s v hs
  obtain ⟨heq, hleft⟩ := hp s hs
  simp only [thenCapture, codePoints, heq]
  cases hps : p s with
  | none => exact ⟨rfl, by simp⟩
  | some r => exact h r v (hleft r hps)

theorem SameCapture.before (h : SameCapture c c') (hp : Same p p') :
    SameCapture (captureThen c p) (captureThen c' p') := by
  intro s v hs
  obtain ⟨heq, hleft⟩ := h s v hs
  simp only [captureThen, heq]
  cases hc : c s v with
  | mk o a =>
      rw [hc] at hleft
      cases o with
      | none => exact ⟨rfl, by simp⟩
      | some r =>
          obtain ⟨heq', hleft'⟩ := hp r (hleft r rfl)
          exact ⟨Prod.ext heq' rfl, hleft'⟩

theorem SameCapture.opt (h : SameCapture c c') : SameCapture (optCapture c) (optCapture c') := by
  intro s v hs
  obtain ⟨heq, hleft⟩ := h s v hs
  simp only [optCapture, heq]
  cases hc : c s v with
  | mk o a =>
      rw [hc] at hleft
      cases o with
      | none =>
          refine ⟨rfl, ?_⟩
          rintro t ⟨⟩
          exact hs
      | some r => exact ⟨rfl, hleft⟩

end

/-! ### The drivers in step -/

section
variable {cls : UnicodeClasses} (hcls : CoincideOnAscii cls) {s : Bytes}
  (hs : ∀ b ∈ s, IsAscii b) (parts : UriParts)
include hcls hs

theorem parseQueryFragment_same :
    Unicode.parseQueryFragment cls (codePoints s) (parts.map UInt8.toUInt32) =
      ((parseQueryFragment s parts).1, (parseQueryFragment s parts).2.map UInt8.toUInt32) := by
  obtain ⟨hq, hleft⟩ := ((raw_same (query_same hcls)).after (lit_same "?")).opt s parts.query hs
  simp only [Unicode.parseQueryFragment, parseQueryFragment, BasicUriParts.map, hq]
  cases hc : optCapture (thenCapture (lit "?") (raw query)) s parts.query with
  | mk o v =>
      rw [hc] at hleft
      cases o with
      | none => rfl
      | some r =>
          obtain ⟨hf, -⟩ := ((raw_same (fragment_same hcls)).after (lit_same "#")).opt r
            parts.fragment (hleft r rfl)
          simp only [Option.map_some, hf]
          cases hc' : optCapture (thenCapture (lit "#") (raw fragment)) r parts.fragment with
          | mk o' v' =>
              cases o' with
              | none => rfl
              | some t => simp [codePoints]

theorem parsePortPath_same :
    Unicode.parsePortPath cls (codePoints s) (parts.map UInt8.toUInt32) =
      ((parsePortPath s parts).1, (parsePortPath s parts).2.map UInt8.toUInt32) := by
  obtain ⟨hp, hleft⟩ := ((raw_same (port_same hcls)).after (lit_same ":")).opt s parts.port hs
  simp only [Unicode.parsePortPath, parsePortPath, BasicUriParts.map, hp]
  cases hc : optCapture (thenCapture (lit ":") (raw port)) s parts.port with
  | mk o v =>
      rw [hc] at hleft
      cases o with
      | none => rfl
      | some r =>
          obtain ⟨ha, hleft'⟩ := raw_same (pathAbempty_same hcls) r parts.path (hleft r rfl)
          simp only [Option.map_some, ha]
          cases hc' : raw pathAbempty r parts.path with
          | mk o' v' =>
              rw [hc'] at hleft'
              cases o' with
              | none => rfl
              | some t =>
                  exact parseQueryFragment_same hcls (hleft' t rfl)
                    { parts with port := v, path := v' }

theorem parseComplete_same :
    Unicode.parseComplete cls (codePoints s) (parts.map UInt8.toUInt32) =
      ((parseComplete s parts).1, (parseComplete s parts).2.map UInt8.toUInt32) := by
  obtain ⟨hsch, hleft⟩ := (raw_same (scheme_same hcls)).before (lit_same ":") s parts.scheme hs
  simp only [Unicode.parseComplete, parseComplete, BasicUriParts.map, hsch]
  cases hc : captureThen (raw scheme) (lit ":") s parts.scheme with
  | mk o v =>
      rw [hc] at hleft
      cases o with
      | none => rfl
      | some old =>
          have hold := hleft old rfl
          obtain ⟨hh, hleft'⟩ := (raw_same (host_same hcls)).after (agrees_seq (lit_same "//")
            (agrees_opt (agrees_seq (userinfo_same hcls) (lit_same "@")))) old parts.host hold
          simp only [Option.map_some, hh]
          cases hc' : thenCapture (seq (lit "//") (opt (seq userinfo (lit "@")))) (raw host) old
              parts.host with
          | mk o' v' =>
              rw [hc'] at hleft'
              cases o' with
              | some t =>
                  exact parsePortPath_same hcls (hleft' t rfl)
                    { parts with scheme := v, host := v' }
              | none =>
                  obtain ⟨he, hleft''⟩ := raw_same (pathEmpty_same hcls) old parts.path hold
                  simp only [Option.map_none, he]
                  cases hc'' : raw pathEmpty old parts.path with
                  | mk o'' v'' =>
                      rw [hc''] at hleft''
                      cases o'' with
                      | none => rfl
                      | some t =>
                          exact parseQueryFragment_same hcls (hleft'' t rfl)
                            { parts with scheme := v, host := v', path := v'' }

theorem parseAuthority_same :
    Unicode.parseAuthority cls (codePoints s) (parts.map UInt8.toUInt32) =
      ((parseAuthority s parts).1, (parseAuthority s parts).2.map UInt8.toUInt32) := by
  obtain ⟨hh, hleft⟩ := (raw_same (host_same hcls)).after
    (agrees_opt (agrees_seq (userinfo_same hcls) (lit_same "@"))) s parts.host hs
  simp only [Unicode.parseAuthority, parseAuthority, BasicUriParts.map, hh]
  cases hc : thenCapture (opt (seq userinfo (lit "@"))) (raw host) s parts.host with
  | mk o v =>
      rw [hc] at hleft
      cases o with
      | none => rfl
      | some t => exact parsePortPath_same hcls (hleft t rfl) { parts with host := v }

theorem parseUri_same :
    Unicode.parseUri cls (codePoints s) = (parseUri s).map UInt8.toUInt32 := by
  have hempty : (BasicUriParts.empty : UriParts).map UInt8.toUInt32 = .empty := rfl
  have hc := parseComplete_same hcls hs .empty
  have ha := parseAuthority_same hcls hs .empty
  rw [hempty] at hc ha
  simp only [Unicode.parseUri, parseUri, hc]
  cases hcomplete : parseComplete s .empty with
  | mk b p =>
      cases b with
      | true => rfl
      | false =>
          simp only [ha]
          cases hauthority : parseAuthority s .empty with
          | mk b' p' => cases b' <;> rfl

end

/-! ### What a result says of itself -/

section
variable (p : UriParts)

theorem isEmpty_map (v : View) : (v.map UInt8.toUInt32).chars.isEmpty = v.chars.isEmpty := by
  simp [BasicView.map]

theorem isAuthority_map : (p.map UInt8.toUInt32).isAuthority = p.isAuthority := by
  simp only [BasicUriParts.isAuthority, BasicUriParts.map, isEmpty_map]

theorem isAbsolute_map : (p.map UInt8.toUInt32).isAbsolute = p.isAbsolute := by
  simp only [BasicUriParts.isAbsolute, BasicUriParts.map, isEmpty_map]

/-- The two spellings of a literal. -/
theorem map_beq_literal {l : String} (hl : l.toList.map Char.val = codePoints (ascii l))
    (w : Bytes) : (w.map UInt8.toUInt32 == l.toList.map Char.val) = (w == ascii l) := by
  have hinj : Function.Injective UInt8.toUInt32 := by
    intro a b hab
    have hnat := congrArg UInt32.toNat hab
    rw [UInt8.toNat_toUInt32, UInt8.toNat_toUInt32] at hnat
    exact UInt8.toNat_inj.1 hnat
  rw [hl, codePoints, Bool.eq_iff_iff, beq_iff_eq, beq_iff_eq]
  exact (List.map_injective_iff.2 hinj).eq_iff

theorem isHttp_map : Unicode.isHttp (p.map UInt8.toUInt32) = p.isHttp := by
  show (p.scheme.chars.map UInt8.toUInt32 == _ || p.scheme.chars.map UInt8.toUInt32 == _) = _
  rw [map_beq_literal (by decide), map_beq_literal (by decide)]
  rfl

end

/-- On every ASCII text the two parsers return the same six slices, the results
say the same of themselves, and `parse_complete` and `parse_authority` accept
alike. -/
theorem parseUri_wide {cls : UnicodeClasses} (hcls : CoincideOnAscii cls) {s : Bytes}
    (hs : ∀ b ∈ s, IsAscii b) :
    Unicode.parseUri cls (codePoints s) = (parseUri s).map UInt8.toUInt32 ∧
      Unicode.isHttp (Unicode.parseUri cls (codePoints s)) = (parseUri s).isHttp ∧
      (Unicode.parseUri cls (codePoints s)).isAuthority = (parseUri s).isAuthority ∧
      (Unicode.parseUri cls (codePoints s)).isAbsolute = (parseUri s).isAbsolute ∧
      (Unicode.parseComplete cls (codePoints s) .empty).1 = (parseComplete s .empty).1 ∧
      (Unicode.parseAuthority cls (codePoints s) .empty).1 = (parseAuthority s .empty).1 := by
  have hparts := parseUri_same hcls hs
  have hcomplete := parseComplete_same hcls hs .empty
  have hauthority := parseAuthority_same hcls hs .empty
  rw [hparts]
  exact ⟨rfl, isHttp_map _, isAuthority_map _, isAbsolute_map _, congrArg Prod.fst hcomplete,
    congrArg Prod.fst hauthority⟩

/-- Classes that know ASCII only. -/
def asciiClasses : UnicodeClasses :=
  ⟨fun c => isAlpha c.toNat, fun c => isDigit c.toNat, fun c => isXdigit c.toNat⟩

theorem asciiClasses_coincide : CoincideOnAscii asciiClasses := by
  constructor <;> intro c _ <;> simp [asciiClasses]

theorem parseUri_wide_ipV6 :
    (∀ b ∈ ascii "https://[::1]:80/", IsAscii b) ∧
      Unicode.parseUri asciiClasses (codePoints (ascii "https://[::1]:80/")) =
        (parseUri (ascii "https://[::1]:80/")).map UInt8.toUInt32 ∧
      Unicode.isHttp (Unicode.parseUri asciiClasses (codePoints (ascii "https://[::1]:80/"))) =
        (parseUri (ascii "https://[::1]:80/")).isHttp := by
  have hall : (ascii "https://[::1]:80/").all (·.toNat < 128) = true := by decide
  have hs : ∀ b ∈ ascii "https://[::1]:80/", IsAscii b := by
    intro b hb
    show b.toNat < 128
    exact of_decide_eq_true (List.all_eq_true.1 hall b hb)
  have h := parseUri_wide asciiClasses_coincide hs
  exact ⟨hs, h.1, h.2.1⟩

end Foxy.Uri
