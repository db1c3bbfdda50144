import Foxy.Uri.Parts
import Foxy.Uri.Compose

/-!
# Foxy.Uri.Split

What the splitter accepts, as a concatenation of its captures.

Every rule the driver uses is confined to an alphabet that leaves out the
delimiters which may follow it (`Peg.Within`, proved rule by rule). From that,
an accepted text is `scheme ":" "//" userinfo "@" host ":" port path "?" query
"#" fragment` with the optional parts optional, and each capture is exactly its
part.
-/

namespace Foxy.Uri

open Peg X3

/-! ### Alphabets of the rules -/

/-- No character of `set` occurs in `w`. -/
def Free (set : String) (w : Bytes) : Prop := ∀ c ∈ w, c ∉ ascii set

theorem Free.append {set : String} {v w : Bytes} (hv : Free set v) (hw : Free set w) :
    Free set (v ++ w) := by
  intro c hc
  rcases List.mem_append.1 hc with hc | hc
  · exact hv c hc
  · exact hw c hc

theorem Free.singleton {set : String} {c : UInt8} (h : c ∉ ascii set) : Free set [c] := by
  simpa [Free] using h

theorem Free.mono {set set' : String} {w : Bytes} (h : Free set w)
    (hs : ascii set' ⊆ ascii set) : Free set' w :=
  fun c hc hmem => h c hc (hs hmem)

theorem within_lit {l set : String} (hl : (ascii l).all (· ∉ ascii set) = true) :
    Within (lit l) (· ∉ ascii set) :=
  fun _ _ h => ⟨ascii l, lit_eq_some h, by simpa using hl⟩

/-- An expression that avoids `set` avoids every smaller set. -/
theorem within_fewer {p : Peg UInt8} {set set' : String} (h : Within p (· ∉ ascii set))
    (hs : ascii set' ⊆ ascii set) : Within p (· ∉ ascii set') :=
  h.mono fun _ hc hmem => hc (hs hmem)

/-- Letters and digits are no delimiters. -/
theorem notMem_of_class (c : UInt8) (hc : (isAlpha c.toNat || isXdigit c.toNat) = true) :
    c ∉ ascii ":/?#[]@" := by
  have hall : (ascii ":/?#[]@").all (fun d => !(isAlpha d.toNat || isXdigit d.toNat)) = true := by
    decide
  intro hmem
  simpa [hc] using List.all_eq_true.1 hall c hmem

theorem alpha_within : Within alpha (· ∉ ascii ":/?#[]@") := by
  refine within_satisfy fun c hc => notMem_of_class c ?_
  rw [hc, Bool.true_or]

theorem xdigit_within : Within xdigit (· ∉ ascii ":/?#[]@") := by
  refine within_satisfy fun c hc => notMem_of_class c ?_
  rw [hc, Bool.or_true]

theorem digit_within : Within digit (· ∉ ascii ":/?#[]@") := by
  refine within_satisfy fun c hc => notMem_of_class c ?_
  rw [isXdigit, hc, Bool.true_or, Bool.true_or, Bool.or_true]

/-- The character sets of the rules, each with delimiters that are not in it. -/
def charSets : List (String × String) :=
  [("-._~", ":/?#[]@"), ("!$&'()*+,;=", ":/?#[]@"), ("0-5", ":/?#[]@"), ("0-4", ":/?#[]@"),
    ("1-9", ":/?#[]@"), (":@", "/?#"), ("/", "?#"), ("/?", "#"), ("+-.", ":/?#")]

theorem charSets_free (x : String × String) (hx : x ∈ charSets) (c : UInt8)
    (hc : charSet (codes x.1) c.toNat = true) : c ∉ ascii x.2 := by
  have hall : charSets.all (fun x =>
      (ascii x.2).all fun d => !charSet (codes x.1) d.toNat) = true := by decide +kernel
  intro hmem
  simpa [hc] using List.all_eq_true.1 (List.all_eq_true.1 hall x hx) c hmem

theorem within_charOf {set free : String} (h : (set, free) ∈ charSets) :
    Within (charOf set) (· ∉ ascii free) :=
  within_satisfy fun c hc => charSets_free _ h c hc

/-- An alphabet is kept by every combinator. -/
theorem within_compositional (q : UInt8 → Prop) : Compositional fun p : Peg UInt8 => Within p q :=
  takes_compositional (closed_all q)

theorem unreserved_within : Within unreserved (· ∉ ascii ":/?#[]@") :=
  unreserved_of (within_compositional _) alpha_within digit_within
    (within_charOf (by simp [charSets]))

theorem pctEncoded_within : Within pctEncoded (· ∉ ascii ":/?#[]@") :=
  pctEncoded_of (within_compositional _) (within_lit (by decide)) xdigit_within

theorem subDelims_within : Within subDelims (· ∉ ascii ":/?#[]@") :=
  within_charOf (by simp [charSets])

/-- No general delimiter is among the characters of a registered name. -/
theorem nameChar_within : Within nameChar (· ∉ ascii ":/?#[]@") :=
  nameChar_of (within_compositional _) unreserved_within pctEncoded_within subDelims_within

/-- Beside colons there is one delimiter fewer to avoid. -/
theorem within_beside_colon {p : Peg UInt8} (h : Within p (· ∉ ascii ":/?#[]@")) :
    Within p (· ∉ ascii "/?#[]@") := within_fewer h (by decide)

theorem colon_within : Within (lit ":") (· ∉ ascii "/?#[]@") := within_lit (by decide)

theorem userinfo_within : Within userinfo (· ∉ ascii "/?#[]@") :=
  userinfo_of (within_compositional _) (within_beside_colon nameChar_within) colon_within

theorem regName_within : Within regName (· ∉ ascii ":/?#[]@") :=
  regName_of (within_compositional _) nameChar_within

theorem decOctet_within : Within decOctet (· ∉ ascii ":/?#[]@") := by
  have hlits : ∀ l ∈ ["25", "2", "1"], (ascii l).all (· ∉ ascii ":/?#[]@") = true := by decide
  have hsets : ∀ set ∈ ["0-5", "0-4", "1-9"], (set, ":/?#[]@") ∈ charSets := by simp [charSets]
  exact decOctet_of (within_compositional _) digit_within (fun l hl => within_lit (hlits l hl))
    fun set hset => within_charOf (hsets set hset)

theorem ipV4Address_within : Within ipV4Address (· ∉ ascii ":/?#[]@") :=
  ipV4Address_of (within_compositional _) decOctet_within (within_lit (by decide))

theorem h16_within : Within h16 (· ∉ ascii "/?#[]@") :=
  h16_of (within_compositional _) (within_beside_colon xdigit_within)

theorem ls32_within : Within ls32 (· ∉ ascii "/?#[]@") :=
  ls32_of (within_compositional _) h16_within colon_within (within_beside_colon ipV4Address_within)

theorem ipV6Address_within : Within ipV6Address (· ∉ ascii "/?#[]@") :=
  ipV6Address_of (within_compositional _) h16_within colon_within (within_lit (by decide))
    ls32_within

theorem ipVfuture_within : Within ipVfuture (· ∉ ascii "/?#[]@") :=
  ipVfuture_of (within_compositional _) (within_lit (by decide))
    (within_beside_colon xdigit_within) (within_lit (by decide))
    (within_beside_colon unreserved_within) (within_beside_colon subDelims_within) colon_within

theorem pchar_within : Within pchar (· ∉ ascii "/?#") :=
  pchar_of (within_compositional _) (within_fewer nameChar_within (by decide))
    (within_charOf (by simp [charSets]))

theorem pathAbempty_within : Within pathAbempty (· ∉ ascii "?#") :=
  pathAbempty_of (within_compositional _)
    (segment_of (within_compositional _) (within_fewer pchar_within (by decide)))
    (within_charOf (by simp [charSets]))

theorem query_within : Within query (· ∉ ascii "#") :=
  query_of (within_compositional _) (within_fewer pchar_within (by decide))
    (within_charOf (by simp [charSets]))

/-- `fragment` is spelled like `query`. -/
theorem fragment_within : Within fragment (· ∉ ascii "#") := query_within

theorem scheme_within : Within scheme (· ∉ ascii ":/?#") :=
  scheme_of (within_compositional _) (within_fewer alpha_within (by decide))
    (within_fewer digit_within (by decide)) (within_charOf (by simp [charSets]))

theorem host_within : Within host (· ∉ ascii "/?#") := by
  have hsets : ∀ set ∈ ["-._~", "!$&'()*+,;=", "0-5", "0-4", "1-9"], (set, ":/?#[]@") ∈ charSets := by
    simp [charSets]
  have hlits : ∀ l ∈ ["25", "2", "1", ".", ":", "::", "v", "[", "]"],
      (ascii l).all (· ∉ ascii "/?#") = true := by decide
  exact host_of_terminals (within_compositional _) (within_fewer alpha_within (by decide))
    (within_fewer digit_within (by decide)) (within_fewer xdigit_within (by decide))
    (within_fewer pctEncoded_within (by decide)) (fun l hl => within_lit (hlits l hl))
    fun set hset => within_fewer (within_charOf (hsets set hset)) (by decide)

theorem authority_within : Within authority (· ∉ ascii "/?#") := by
  have hP := within_compositional fun c => c ∉ ascii "/?#"
  refine hP.seq (hP.seq (hP.opt (hP.seq ?_ (within_lit (by decide)))) host_within)
    (hP.opt (hP.seq (within_lit (by decide)) ?_))
  · exact within_fewer userinfo_within (by decide)
  · exact within_star (within_fewer digit_within (by decide))

theorem hierPart_within : Within hierPart (· ∉ ascii "?#") := by
  have hP := within_compositional fun c => c ∉ ascii "?#"
  have hpchar : Within pchar (· ∉ ascii "?#") := within_fewer pchar_within (by decide)
  have hsegments : Within (seq segmentNz (star (seq (lit "/") segment))) (· ∉ ascii "?#") :=
    hP.seq (hP.plus pchar_consumes hpchar)
      (within_star (hP.seq (within_lit (by decide)) (segment_of hP hpchar)))
  refine hP.alt (hP.alt (hP.alt (hP.seq (hP.seq (within_lit (by decide)) ?_) pathAbempty_within)
    (hP.seq (within_charOf (by simp [charSets])) (hP.opt hsegments))) hsegments) (hP.times hpchar 0)
  exact within_fewer authority_within (by decide)

theorem absoluteUri_within : Within absoluteUri (· ∉ ascii "#") := by
  have hP := within_compositional fun c => c ∉ ascii "#"
  exact hP.seq (hP.seq (hP.seq (within_fewer scheme_within (by decide)) (within_lit (by decide)))
    (within_fewer hierPart_within (by decide))) (hP.opt (hP.seq (within_lit (by decide)) query_within))

/-! ### Texts cut at their delimiters -/

/-- An optional part with the delimiter that leads it. -/
def led (d : Char) : Option Bytes → Bytes
  | none => []
  | some w => chr d :: w

/-- An optional part with the delimiter that ends it. -/
def ended (d : Char) : Option Bytes → Bytes
  | none => []
  | some w => w ++ [chr d]

/-- A host holds no delimiter, or it is bracketed and only the brackets and the
colons between them are. -/
def HostShape (h : Bytes) : Prop :=
  Free ":/?#[]@" h ∨ ∃ inner, h = chr '[' :: (inner ++ [chr ']']) ∧ Free "/?#[]@" inner

/-- `[ userinfo "@" ] host [ ":" port ]`. -/
structure Authority where
  user : Option Bytes
  host : Bytes
  port : Option Bytes
  user_free : ∀ w ∈ user, Free "/?#[]@" w
  host_shape : HostShape host
  port_free : ∀ w ∈ port, Free ":/?#[]@" w

def Authority.text (a : Authority) : Bytes := ended '@' a.user ++ a.host ++ led ':' a.port

/-- A text cut into the parts of a URI. A path occurs only behind an authority,
where it is empty or begins with a slash. -/
structure Cut where
  scheme : Option Bytes
  authority : Option Authority
  path : Bytes
  query : Option Bytes
  fragment : Option Bytes
  scheme_ne : ∀ w ∈ scheme, w ≠ []
  scheme_free : ∀ w ∈ scheme, Free ":/?#" w
  path_start : path = [] ∨ authority.isSome ∧ path.head? = some (chr '/')
  path_free : Free "?#" path
  query_free : ∀ w ∈ query, Free "#" w

namespace Cut

/-- The authority behind its slashes. -/
def slashed : Option Authority → Bytes
  | none => []
  | some a => ascii "//" ++ a.text

def text (c : Cut) : Bytes :=
  ended ':' c.scheme ++ (slashed c.authority ++ (c.path ++ (led '?' c.query ++ led '#' c.fragment)))

/-- The result holds the parts of the cut, an absent one as an empty view. -/
structure Fills (c : Cut) (p : UriParts) : Prop where
  scheme : p.scheme.chars = c.scheme.getD []
  host : p.host.chars = (c.authority.map Authority.host).getD []
  port : p.port.chars = (c.authority.bind Authority.port).getD []
  path : p.path.chars = c.path
  query : p.query.chars = c.query.getD []
  fragment : p.fragment.chars = c.fragment.getD []

end Cut

/-! ### Captures -/

/-- The view of what lies between two places of the text, given by what is left
there. -/
def slice (s r : Bytes) : View := ⟨some s.length, s.take (s.length - r.length)⟩

@[simp]
theorem slice_append (w r : Bytes) : (slice (w ++ r) r).chars = w := by simp [slice]

@[simp]
theorem slice_all (w : Bytes) : (slice w []).chars = w := by simp [slice]

section
variable {p : Peg UInt8} {l : String} {s r t : Bytes}

theorem raw_of_some (h : p s = some r) (a : View) : raw p s a = (some r, slice s r) := by
  simp only [raw, h]
  rfl

theorem raw_of_none (h : p s = none) (a : View) : raw p s a = (none, a) := by
  simp only [raw, h]

/-- An optional part behind its delimiter. -/
theorem optLed_of_some (hl : lit l s = some r) (hp : p r = some t) (a : View) :
    optCapture (thenCapture (lit l) (raw p)) s a = (some t, slice r t) := by
  simp only [optCapture, thenCapture, hl, raw_of_some hp]

theorem optLed_of_none (hl : lit l s = none) (a : View) :
    optCapture (thenCapture (lit l) (raw p)) s a = (some s, a) := by
  simp only [optCapture, thenCapture, hl]

variable {a v : View}

theorem raw_eq_some (h : raw p s a = (some r, v)) : p s = some r ∧ v = slice s r := by
  cases hs : p s with
  | none => simp [raw_of_none hs] at h
  | some r' =>
      rw [raw_of_some hs, Prod.mk.injEq, Option.some.injEq] at h
      obtain ⟨rfl, rfl⟩ := h
      exact ⟨rfl, rfl⟩

theorem raw_within {q : UInt8 → Prop} (hp : Within p q) (h : raw p s a = (some r, v)) :
    s = v.chars ++ r ∧ ∀ c ∈ v.chars, q c := by
  obtain ⟨hs, rfl⟩ := raw_eq_some h
  obtain ⟨w, rfl, hw⟩ := hp s r hs
  rw [slice_append]
  exact ⟨rfl, hw⟩

/-- The optional part led by a delimiter: absent, with the attribute untouched,
or captured whole. -/
theorem optLed_eq_some {d : Char} {set : String} (hl : ascii l = [chr d])
    (hp : Within p (· ∉ ascii set)) (htotal : Total p)
    (h : optCapture (thenCapture (lit l) (raw p)) s .null = (some r, v)) :
    ∃ o : Option Bytes, s = led d o ++ r ∧ v.chars = o.getD [] ∧ ∀ w ∈ o, Free set w := by
  cases hlit : lit l s with
  | none =>
      rw [optLed_of_none hlit, Prod.mk.injEq, Option.some.injEq] at h
      obtain ⟨rfl, rfl⟩ := h
      exact ⟨none, rfl, rfl, by simp⟩
  | some r₁ =>
      obtain ⟨r₂, hr₂⟩ := htotal r₁
      rw [optLed_of_some hlit hr₂, Prod.mk.injEq, Option.some.injEq] at h
      obtain ⟨rfl, rfl⟩ := h
      obtain ⟨w, rfl, hw⟩ := hp r₁ r₂ hr₂
      refine ⟨some w, ?_, slice_append w r₂, ?_⟩
      · rw [lit_eq_some hlit, hl]
        rfl
      · intro _ hmem
        cases hmem
        exact hw

end

/-! ### Userinfo, host and path -/

theorem optUserinfo_eq_some {s r : Bytes} (h : opt (seq userinfo (lit "@")) s = some r) :
    ∃ u : Option Bytes, s = ended '@' u ++ r ∧ ∀ w ∈ u, Free "/?#[]@" w := by
  simp only [opt] at h
  cases hu : seq userinfo (lit "@") s with
  | none =>
      rw [hu] at h
      obtain rfl : s = r := by simpa using h
      exact ⟨none, rfl, by simp⟩
  | some r' =>
      rw [hu] at h
      obtain rfl : r' = r := by simpa using h
      obtain ⟨r₁, hui, hat⟩ := seq_eq_some_iff.1 hu
      obtain ⟨w, rfl, hw⟩ := userinfo_within s r₁ hui
      refine ⟨some w, ?_, ?_⟩
      · rw [lit_eq_some hat, ended, List.append_assoc]
        rfl
      · intro _ hw
        cases hw
        exact hw

theorem ipLiteral_eq_some {s r : Bytes} (h : ipLiteral s = some r) :
    ∃ inner, s = chr '[' :: (inner ++ [chr ']']) ++ r ∧ Free "/?#[]@" inner := by
  obtain ⟨r₂, h', hclose⟩ := seq_eq_some_iff.1 h
  obtain ⟨r₁, hopen, hinner⟩ := seq_eq_some_iff.1 h'
  obtain ⟨w, rfl, hw⟩ := within_alt ipV6Address_within ipVfuture_within r₁ r₂ hinner
  refine ⟨w, ?_, hw⟩
  rw [lit_eq_some hopen, lit_eq_some hclose]
  show chr '[' :: (w ++ chr ']' :: r) = chr '[' :: (w ++ [chr ']']) ++ r
  simp

theorem host_eq_some {s r : Bytes} (h : host s = some r) : ∃ w, s = w ++ r ∧ HostShape w := by
  simp only [host, alt] at h
  cases hlit : ipLiteral s with
  | some r' =>
      rw [hlit] at h
      obtain rfl : r' = r := by simpa using h
      obtain ⟨inner, hs, hfree⟩ := ipLiteral_eq_some hlit
      exact ⟨_, hs, Or.inr ⟨inner, rfl, hfree⟩⟩
  | none =>
      -- the other two alternatives have the same alphabet
      have hname : alt ipV4Address regName s = some r := by simpa [hlit, alt] using h
      obtain ⟨w, hs, hfree⟩ := within_alt ipV4Address_within regName_within s r hname
      exact ⟨w, hs, Or.inl hfree⟩

theorem hostShape_of_host {s : Bytes} (h : host s = some []) : HostShape s :=
  Takes.whole (fun _ _ hs => host_eq_some hs) h

theorem rawHost_eq_some {s r : Bytes} {a v : View} (h : raw host s a = (some r, v)) :
    s = v.chars ++ r ∧ HostShape v.chars := by
  obtain ⟨hs, rfl⟩ := raw_eq_some h
  obtain ⟨w, rfl, hw⟩ := host_eq_some hs
  rw [slice_append]
  exact ⟨rfl, hw⟩

/-- `path-abempty` consumes nothing or starts at a slash. -/
theorem pathAbempty_start {s r : Bytes} (h : pathAbempty s = some r) :
    s = r ∨ s.head? = some (chr '/') := by
  cases hs : seq (charOf "/") segment s with
  | none =>
      left
      rw [pathAbempty, star_of_none slashSegment_consumes hs, Option.some.injEq] at h
      exact h
  | some t =>
      right
      obtain ⟨r₁, hslash, -⟩ := seq_eq_some_iff.1 hs
      obtain ⟨c, rfl, hc⟩ := satisfy_eq_some.1 hslash
      have hcode : c.toNat = (chr '/').toNat := beq_iff_eq.1 hc
      rw [UInt8.toNat_inj.1 hcode]
      rfl

theorem rawPath_eq_some {s r : Bytes} {a v : View} (h : raw pathAbempty s a = (some r, v)) :
    s = v.chars ++ r ∧ Free "?#" v.chars ∧ (v.chars = [] ∨ v.chars.head? = some (chr '/')) := by
  obtain ⟨hs, -⟩ := raw_eq_some h
  obtain ⟨rfl, hfree⟩ := raw_within pathAbempty_within h
  refine ⟨rfl, hfree, ?_⟩
  rcases pathAbempty_start hs with heq | hhead
  · exact Or.inl (by simpa using heq)
  · cases hv : v.chars with
    | nil => exact Or.inl rfl
    | cons c w => exact Or.inr (by simpa [hv] using hhead)

/-! ### The driver -/

theorem parseQueryFragment_eq_true {iter : Bytes} {parts p : UriParts}
    (hq : parts.query = .null) (hf : parts.fragment = .null)
    (h : parseQueryFragment iter parts = (true, p)) :
    ∃ q f : Option Bytes, iter = led '?' q ++ led '#' f ∧ (∀ w ∈ q, Free "#" w) ∧
      p.query.chars = q.getD [] ∧ p.fragment.chars = f.getD [] ∧
      p.scheme = parts.scheme ∧ p.host = parts.host ∧ p.port = parts.port ∧
      p.path = parts.path := by
  simp only [parseQueryFragment, hq, hf] at h
  cases hcq : optCapture (thenCapture (lit "?") (raw query)) iter .null with
  | mk o vq =>
    cases o with
    | none => simp [hcq] at h
    | some r =>
        simp only [hcq] at h
        cases hcf : optCapture (thenCapture (lit "#") (raw fragment)) r .null with
        | mk o' vf =>
          cases o' with
          | none => simp [hcf] at h
          | some r' =>
              simp only [hcf, Prod.mk.injEq, List.isEmpty_iff] at h
              obtain ⟨rfl, rfl⟩ := h
              obtain ⟨q, rfl, hvq, hqfree⟩ := optLed_eq_some (d := '?') rfl query_within (total_star _) hcq
              obtain ⟨f, rfl, hvf, -⟩ := optLed_eq_some (d := '#') rfl fragment_within (total_star _) hcf
              exact ⟨q, f, by simp, hqfree, hvq, hvf, rfl, rfl, rfl, rfl⟩

/-- From the host on: what is left is a port, a path, a query and a fragment,
and with any authority text before it these make a cut. -/
theorem parsePortPath_eq_true {iter : Bytes} {parts p : UriParts} (scheme user : Option Bytes)
    (hp : parts.port = .null) (hq : parts.query = .null) (hf : parts.fragment = .null)
    (h : parsePortPath iter parts = (true, p))
    (hne : ∀ w ∈ scheme, w ≠ []) (hscheme : ∀ w ∈ scheme, Free ":/?#" w)
    (huser : ∀ w ∈ user, Free "/?#[]@" w) (hhost : HostShape parts.host.chars)
    (hs : parts.scheme.chars = scheme.getD []) :
    ∃ c : Cut, c.scheme = scheme ∧ c.authority.isSome ∧ c.Fills p ∧
      c.text = ended ':' scheme ++ (ascii "//" ++ (ended '@' user ++ (parts.host.chars ++ iter))) := by
  simp only [parsePortPath, hp] at h
  cases hcp : optCapture (thenCapture (lit ":") (raw port)) iter .null with
  | mk o vp =>
    cases o with
    | none => simp [hcp] at h
    | some r =>
        simp only [hcp] at h
        obtain ⟨port, rfl, hvp, hpfree⟩ := optLed_eq_some (d := ':') rfl (within_star digit_within)
          (total_star _) hcp
        cases hca : raw pathAbempty r parts.path with
        | mk o' va =>
          cases o' with
          | none => simp [hca] at h
          | some r' =>
              simp only [hca] at h
              obtain ⟨q, f, rfl, hqfree, hvq, hvf, hsch, hh, hpo, hpa⟩ :=
                parseQueryFragment_eq_true (by simpa using hq) (by simpa using hf) h
              obtain ⟨rfl, hafree, hstart⟩ := rawPath_eq_some hca
              refine ⟨⟨scheme, some ⟨user, parts.host.chars, port, huser, hhost, hpfree⟩, va.chars,
                q, f, hne, hscheme, ?_, hafree, hqfree⟩, rfl, rfl, ?_, ?_⟩
              · rcases hstart with h0 | h0
                · exact Or.inl h0
                · exact Or.inr ⟨rfl, h0⟩
              · exact ⟨by rw [hsch]; exact hs, by rw [hh]; rfl, by rw [hpo]; exact hvp,
                  by rw [hpa], hvq, hvf⟩
              · simp [Cut.text, Cut.slashed, Authority.text]

/-- The first step of `parse_complete`: a scheme and its colon. -/
theorem schemeColon_eq_some {s r : Bytes} {a v : View}
    (h : captureThen (raw scheme) (lit ":") s a = (some r, v)) :
    s = ended ':' (some v.chars) ++ r ∧ Free ":/?#" v.chars ∧ v.chars ≠ [] := by
  simp only [captureThen] at h
  cases hraw : raw scheme s a with
  | mk o v' =>
    cases o with
    | none => simp [hraw] at h
    | some r₁ =>
        simp only [hraw, Prod.mk.injEq] at h
        obtain ⟨hcolon, rfl⟩ := h
        obtain ⟨hsch, -⟩ := raw_eq_some hraw
        obtain ⟨rfl, hfree⟩ := raw_within scheme_within hraw
        refine ⟨?_, hfree, ?_⟩
        · rw [lit_eq_some hcolon, ended, List.append_assoc]
          rfl
        · -- a scheme begins with a letter, so it is not empty
          intro hnil
          obtain ⟨w, hw, hne⟩ := scheme_consumes _ r₁ hsch
          rw [hnil, List.nil_append] at hw
          exact hne (List.self_eq_append_left.1 hw)

/-- `[ userinfo "@" ] host`, the host captured. -/
theorem userHost_eq_some {s r : Bytes} {a v : View}
    (h : thenCapture (opt (seq userinfo (lit "@"))) (raw host) s a = (some r, v)) :
    ∃ u : Option Bytes, s = ended '@' u ++ (v.chars ++ r) ∧ (∀ w ∈ u, Free "/?#[]@" w) ∧
      HostShape v.chars := by
  simp only [thenCapture] at h
  cases hu : opt (seq userinfo (lit "@")) s with
  | none => simp [hu] at h
  | some r₁ =>
      simp only [hu] at h
      obtain ⟨u, rfl, hufree⟩ := optUserinfo_eq_some hu
      obtain ⟨rfl, hshape⟩ := rawHost_eq_some h
      exact ⟨u, rfl, hufree, hshape⟩

/-- `"//" [ userinfo "@" ] host`, the host captured. -/
theorem slashesHost_eq_some {s r : Bytes} {a v : View}
    (h : thenCapture (seq (lit "//") (opt (seq userinfo (lit "@")))) (raw host) s a = (some r, v)) :
    ∃ u : Option Bytes, s = ascii "//" ++ (ended '@' u ++ (v.chars ++ r)) ∧
      (∀ w ∈ u, Free "/?#[]@" w) ∧ HostShape v.chars := by
  simp only [thenCapture] at h
  cases hsl : lit "//" s with
  | none => simp [seq, hsl] at h
  | some r₁ =>
      simp only [seq, hsl] at h
      obtain ⟨u, hr₁, hufree, hshape⟩ := userHost_eq_some (s := r₁) (a := a) h
      exact ⟨u, by rw [lit_eq_some hsl, hr₁], hufree, hshape⟩

/-- Where that fails the attribute is untouched: the host is the last step. -/
theorem slashesHost_eq_none {s : Bytes} {a v : View}
    (h : thenCapture (seq (lit "//") (opt (seq userinfo (lit "@")))) (raw host) s a = (none, v)) :
    v = a := by
  simp only [thenCapture] at h
  cases hsl : seq (lit "//") (opt (seq userinfo (lit "@"))) s with
  | none => simpa [hsl] using h.symm
  | some r₁ =>
      simp only [hsl] at h
      cases hh : host r₁ with
      | none => simpa [raw_of_none hh] using h.symm
      | some r₂ => simp [raw_of_some hh] at h

/-- What `parse_complete` accepts is a cut with a scheme, and the result holds
its parts. -/
theorem parseComplete_eq_true {s : Bytes} {p : UriParts}
    (h : parseComplete s .empty = (true, p)) :
    ∃ c : Cut, c.scheme.isSome ∧ c.text = s ∧ c.Fills p := by
  simp only [parseComplete] at h
  cases hcs : captureThen (raw scheme) (lit ":") s BasicUriParts.empty.scheme with
  | mk o vs =>
    cases o with
    | none => simp [hcs] at h
    | some old =>
        simp only [hcs] at h
        obtain ⟨hs, hsfree, hsne⟩ := schemeColon_eq_some hcs
        cases hch : thenCapture (seq (lit "//") (opt (seq userinfo (lit "@")))) (raw host) old
            BasicUriParts.empty.host with
        | mk o' vh =>
          cases o' with
          | some iter =>
              simp only [hch] at h
              obtain ⟨u, rfl, hufree, hshape⟩ := slashesHost_eq_some hch
              obtain ⟨c, hcs', -, hfills, htext⟩ := parsePortPath_eq_true (some vs.chars) u
                rfl rfl rfl h (by intro _ hw; cases hw; exact hsne)
                (by intro _ hw; cases hw; exact hsfree) hufree hshape rfl
              exact ⟨c, by rw [hcs']; rfl, by rw [htext, hs], hfills⟩
          | none =>
              -- no authority: the path stays empty and the rest is query and fragment
              obtain rfl : vh = .null := slashesHost_eq_none hch
              have hpath : raw pathEmpty old BasicUriParts.empty.path =
                  (some old, ⟨some old.length, []⟩) := by
                simp [raw, pathEmpty, times]
              simp only [hch, hpath] at h
              obtain ⟨q, f, rfl, hqfree, hvq, hvf, hsch, hh, hpo, hpa⟩ :=
                parseQueryFragment_eq_true rfl rfl h
              refine ⟨⟨some vs.chars, none, [], q, f, ?_, ?_, Or.inl rfl, by simp [Free], hqfree⟩,
                rfl, ?_, ?_⟩
              · intro _ hw
                cases hw
                exact hsne
              · intro _ hw
                cases hw
                exact hsfree
              · simp [Cut.text, Cut.slashed, hs]
              · exact ⟨by rw [hsch]; rfl, by rw [hh]; rfl, by rw [hpo]; rfl, by rw [hpa], hvq, hvf⟩

/-- What `parse_authority` accepts becomes, behind two slashes, a cut without a
scheme, and the result holds its parts. -/
theorem parseAuthority_eq_true {s : Bytes} {p : UriParts}
    (h : parseAuthority s .empty = (true, p)) :
    ∃ c : Cut, c.scheme = none ∧ c.text = ascii "//" ++ s ∧ c.Fills p := by
  simp only [parseAuthority] at h
  cases hch : thenCapture (opt (seq userinfo (lit "@"))) (raw host) s BasicUriParts.empty.host with
  | mk o vh =>
    cases o with
    | none => simp [hch] at h
    | some iter =>
        simp only [hch] at h
        obtain ⟨u, rfl, hufree, hshape⟩ := userHost_eq_some hch
        obtain ⟨c, hcs, -, hfills, htext⟩ := parsePortPath_eq_true none u rfl rfl rfl h
          (by simp) (by simp) hufree hshape rfl
        exact ⟨c, hcs, htext, hfills⟩

end Foxy.Uri
