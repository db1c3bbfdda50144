import Foxy.Uri.Split

/-!
# Foxy.Uri.Grammar

The hand-written driver of `parse_complete` against the rule `uri`.

A grammar with an attribute moves the iterator as the grammar without it does
(`Captures`), so the driver is itself an expression: a scheme, its colon, a
`hier-part` of which only the authority and the empty path are left
(`knownHierPart`), a query and a fragment. What is left of `hier-part` agrees
with the whole of it exactly where the text behind the colon is empty or begins
with two slashes, a question mark or a number sign.
-/

namespace Foxy.Uri

open Peg X3

/-! ### Captures move the iterator as their grammars do -/

section
variable {α : Type}

/-- `c` matches what `p` matches. -/
def Captures (c : BasicCapture α) (p : Peg α) : Prop := ∀ s v, (c s v).1 = p s

variable {c : BasicCapture α} {p p' : Peg α}

theorem captures_raw (p : Peg α) : Captures (raw p) p := by
  intro s v
  simp only [raw]
  cases p s <;> rfl

theorem Captures.after (h : Captures c p) (p' : Peg α) :
    Captures (thenCapture p' c) (seq p' p) := by
  intro s v
  simp only [thenCapture, seq]
  cases p' s with
  | none => rfl
  | some r => exact h r v

theorem Captures.before (h : Captures c p) (p' : Peg α) :
    Captures (captureThen c p') (seq p p') := by
  intro s v
  simp only [captureThen, seq, ← h s v]
  cases hc : c s v with
  | mk o a => cases o <;> rfl

theorem Captures.opt (h : Captures c p) : Captures (optCapture c) (opt p) := by
  intro s v
  simp only [optCapture, Peg.opt, ← h s v]
  cases hc : c s v with
  | mk o a => cases o <;> rfl

/-- With the iterator known, what is left of a run is its attribute. -/
theorem Captures.eq (h : Captures c p) {s : List α} {o : Option (List α)} (hp : p s = o)
    (v : BasicView α) : ∃ v', c s v = (o, v') :=
  ⟨(c s v).2, Prod.ext ((h s v).trans hp) rfl⟩

end

/-! ### The driver as an expression -/

/-- The tail of `uri`. -/
def queryFragment : Peg UInt8 := seq (opt (seq (lit "?") query)) (opt (seq (lit "#") fragment))

/-- The alternatives of `hier-part` that `parse_complete` tries. -/
def knownHierPart : Peg UInt8 := alt (seq (seq (lit "//") authority) pathAbempty) pathEmpty

theorem host_total : Total host := total_alt _ (total_star _)

theorem authority_total : Total authority :=
  total_seq (total_seq (total_opt _) host_total) (total_opt _)

theorem uri_eq (s : Bytes) :
    uri s = seq (seq scheme (lit ":")) (seq hierPart queryFragment) s := by
  rw [uri, queryFragment, seq_assoc, seq_assoc]

/-- The query and the fragment are all the text holds, and the rest of the
result stays. -/
theorem parseQueryFragment_spec (s : Bytes) (parts : UriParts) :
    ∃ b vq vf, parseQueryFragment s parts = (b, { parts with query := vq, fragment := vf }) ∧
      (b = true ↔ queryFragment s = some []) := by
  obtain ⟨r, hr⟩ := total_opt (seq (lit "?") query) s
  obtain ⟨t, ht⟩ := total_opt (seq (lit "#") fragment) r
  obtain ⟨vq, hq⟩ := ((captures_raw query).after (lit "?")).opt.eq hr parts.query
  obtain ⟨vf, hf⟩ := ((captures_raw fragment).after (lit "#")).opt.eq ht parts.fragment
  refine ⟨t.isEmpty, vq, vf, by simp only [parseQueryFragment, hq, hf], ?_⟩
  rw [queryFragment, seq_eq_some_iff.2 ⟨r, hr, ht⟩, Option.some.injEq, List.isEmpty_iff]

/-- What the port's capture leaves: untouched without a colon, else the slice
behind it. -/
def portView (s r : Bytes) (v : View) : View :=
  match lit ":" s with
  | none => v
  | some t => slice t r

theorem optPort_eq {s r : Bytes} (h : opt (seq (lit ":") port) s = some r) (v : View) :
    optCapture (thenCapture (lit ":") (raw port)) s v = (some r, portView s r v) := by
  simp only [opt, seq] at h
  simp only [portView]
  cases hl : lit ":" s with
  | none =>
      rw [hl] at h
      obtain rfl : s = r := by simpa using h
      exact optLed_of_none hl v
  | some t =>
      obtain ⟨r', hr'⟩ : ∃ r', port t = some r' := total_star _ t
      simp only [hl, hr', Option.some.injEq] at h
      subst h
      exact optLed_of_some hl hr' v

/-- From the host on, the driver follows the rules. -/
theorem parsePortPath_spec (s : Bytes) (parts : UriParts) :
    ∃ r t vq vf b, opt (seq (lit ":") port) s = some r ∧ pathAbempty r = some t ∧
      parsePortPath s parts = (b, { parts with
        port := portView s r parts.port, path := slice r t, query := vq, fragment := vf }) ∧
      (b = true ↔ queryFragment t = some []) := by
  obtain ⟨r, hr⟩ := total_opt (seq (lit ":") port) s
  obtain ⟨t, ht⟩ : ∃ t, pathAbempty r = some t := total_star _ r
  obtain ⟨b, vq, vf, hqf, hb⟩ := parseQueryFragment_spec t
    { parts with port := portView s r parts.port, path := slice r t }
  refine ⟨r, t, vq, vf, b, hr, ht, ?_, hb⟩
  simp only [parsePortPath, optPort_eq hr, raw_of_some ht]
  exact hqf

/-- How `hier-part` runs from `rest` to `e`, and the views of it in the result.
Behind two slashes the host, the port and the path are what the rules inside
`authority` and then `path-abempty` match; without them nothing is matched and
only the empty path is captured. -/
inductive HierSlices (parts : UriParts) (rest : Bytes) : Bytes → UriParts → Prop
  | authority {p : UriParts} {a b c d e : Bytes} :
      lit "//" rest = some a →
      authority a = some d →
      opt (seq userinfo (lit "@")) a = some b → host b = some c →
      opt (seq (lit ":") port) c = some d →
      pathAbempty d = some e →
      p.host = slice b c → p.port = portView c d parts.port → p.path = slice d e →
      HierSlices parts rest e p
  | bare {p : UriParts} :
      lit "//" rest = none →
      p.host = parts.host → p.port = parts.port → p.path = slice rest rest →
      HierSlices parts rest rest p

theorem knownHierPart_of_slashes {rest a d e : Bytes} (h : lit "//" rest = some a)
    (ha : authority a = some d) (hp : pathAbempty d = some e) : knownHierPart rest = some e := by
  simp only [knownHierPart, alt, seq, h, ha, hp]

theorem knownHierPart_of_none {rest : Bytes} (h : lit "//" rest = none) :
    knownHierPart rest = some rest := by
  simp only [knownHierPart, alt, seq, h, pathEmpty, times]

/-- Behind the scheme and its colon the driver follows `knownHierPart`. -/
theorem parseComplete_spec {s rest : Bytes} (h : seq scheme (lit ":") s = some rest)
    (parts : UriParts) :
    ∃ e b p, knownHierPart rest = some e ∧ parseComplete s parts = (b, p) ∧
      (b = true ↔ queryFragment e = some []) ∧ HierSlices parts rest e p := by
  obtain ⟨vs, hs⟩ := ((captures_raw scheme).before (lit ":")).eq h parts.scheme
  cases hl : lit "//" rest with
  | none =>
      have hh : thenCapture (seq (lit "//") (opt (seq userinfo (lit "@")))) (raw host) rest
          parts.host = (none, parts.host) := by
        simp only [thenCapture, seq, hl]
      have hpath : raw pathEmpty rest parts.path = (some rest, slice rest rest) := raw_of_some rfl _
      obtain ⟨b, vq, vf, hqf, hb⟩ := parseQueryFragment_spec rest
        { parts with scheme := vs, path := slice rest rest }
      refine ⟨rest, b, ⟨vs, parts.host, parts.port, slice rest rest, vq, vf⟩,
        knownHierPart_of_none hl, ?_, hb, .bare hl rfl rfl rfl⟩
      simp only [parseComplete, hs, hh, hpath]
      exact hqf
  | some a =>
      obtain ⟨u, hu⟩ := total_opt (seq userinfo (lit "@")) a
      obtain ⟨c, hc⟩ := host_total u
      have hh : thenCapture (seq (lit "//") (opt (seq userinfo (lit "@")))) (raw host) rest
          parts.host = (some c, slice u c) := by
        simp only [thenCapture, seq_eq_some_iff.2 ⟨a, hl, hu⟩, raw_of_some hc]
      obtain ⟨d, e, vq, vf, b, hd, he, hpp, hb⟩ := parsePortPath_spec c
        { parts with scheme := vs, host := slice u c }
      have ha : authority a = some d :=
        seq_eq_some_iff.2 ⟨c, seq_eq_some_iff.2 ⟨u, hu, hc⟩, hd⟩
      refine ⟨e, b, ⟨vs, slice u c, portView c d parts.port, slice d e, vq, vf⟩,
        knownHierPart_of_slashes hl ha he, ?_, hb, .authority hl ha hu hc hd he rfl rfl rfl⟩
      simp only [parseComplete, hs, hh]
      exact hpp

/-- Without a scheme and its colon the driver gives up. -/
theorem parseComplete_of_none {s : Bytes} (h : seq scheme (lit ":") s = none) (parts : UriParts) :
    (parseComplete s parts).1 = false := by
  obtain ⟨vs, hs⟩ := ((captures_raw scheme).before (lit ":")).eq h parts.scheme
  simp only [parseComplete, hs]

/-! ### Where the driver knows all of `hier-part` -/

/-- Empty, or begins with `//`, `?` or `#`. -/
def Delimited (rest : Bytes) : Prop :=
  rest = [] ∨ ascii "//" <+: rest ∨ rest.head? = some (chr '?') ∨ rest.head? = some (chr '#')

instance (rest : Bytes) : Decidable (Delimited rest) :=
  inferInstanceAs (Decidable (rest = [] ∨ ascii "//" <+: rest ∨ rest.head? = some (chr '?') ∨
    rest.head? = some (chr '#')))

/-- Neither two slashes nor a path can begin where there is no character, a `?`
or a `#`. -/
theorem hierPart_of_mark {rest : Bytes} (h : ∀ c ∈ rest.head?, c = chr '?' ∨ c = chr '#') :
    lit "//" rest = none ∧ hierPart rest = some rest := by
  have hmark : ∀ c ∈ rest.head?, ¬c ∉ ascii "?#" := by
    intro c hc hmem
    rcases h c hc with rfl | rfl <;> exact hmem (by decide)
  have hslashes : Within (lit "//") (· ∉ ascii "?#") := within_lit (by decide)
  have hslash : Within (charOf "/") (· ∉ ascii "?#") := within_charOf (by simp [charSets])
  have hl := (lit_consumes (by decide)).eq_none hslashes hmark
  have hs : charOf "/" rest = none := (consumes_satisfy _).eq_none hslash hmark
  have hp := pchar_consumes.eq_none (within_fewer pchar_within (by decide)) hmark
  refine ⟨hl, ?_⟩
  simp only [hierPart, pathAbsolute, pathRootless, segmentNz, pathEmpty, alt, seq, plus, hl, hs, hp,
    times]

theorem Delimited.hierPart_eq {rest : Bytes} (h : Delimited rest) :
    hierPart rest = knownHierPart rest := by
  have hmark (h : ∀ c ∈ rest.head?, c = chr '?' ∨ c = chr '#') :
      hierPart rest = knownHierPart rest := by
    obtain ⟨hl, hh⟩ := hierPart_of_mark h
    rw [hh, knownHierPart_of_none hl]
  rcases h with rfl | ⟨a, rfl⟩ | h | h
  · exact hmark (by simp)
  · have hl : lit "//" (ascii "//" ++ a) = some a := lit_append (by decide) a
    obtain ⟨d, hd⟩ := authority_total a
    obtain ⟨e, he⟩ : ∃ e, pathAbempty d = some e := total_star _ d
    rw [knownHierPart_of_slashes hl hd he]
    simp only [hierPart, alt, seq, hl, hd, he]
  · exact hmark (by simp [h])
  · exact hmark (by simp [h])

theorem head?_of_lit {l : String} {c : Char} {s r : Bytes} (hl : ascii l = [chr c])
    (h : lit l s = some r) : s.head? = some (chr c) := by
  rw [lit_eq_some h, hl]
  rfl

/-- A text that the driver reads to its end has a delimiter behind the colon. -/
theorem delimited_of_known {rest e : Bytes} (h : knownHierPart rest = some e)
    (hq : queryFragment e = some []) : Delimited rest := by
  cases hl : lit "//" rest with
  | some a => exact Or.inr (Or.inl ⟨a, (lit_eq_some hl).symm⟩)
  | none =>
      rw [knownHierPart_of_none hl, Option.some.injEq] at h
      subst h
      simp only [queryFragment, seq, opt] at hq
      cases hqm : lit "?" rest with
      | some r => exact Or.inr (Or.inr (Or.inl (head?_of_lit rfl hqm)))
      | none =>
          cases hfm : lit "#" rest with
          | some r => exact Or.inr (Or.inr (Or.inr (head?_of_lit rfl hfm)))
          | none =>
              simp only [hqm, hfm, Option.some.injEq] at hq
              exact Or.inl hq

/-- On such a text the rule goes on as the driver does. -/
theorem uri_of_delimited {s rest e : Bytes} (hs : seq scheme (lit ":") s = some rest)
    (hd : Delimited rest) (he : knownHierPart rest = some e) : uri s = queryFragment e := by
  rw [uri_eq, seq, hs]
  simp only [seq, hd.hierPart_eq, he]

theorem parseComplete_fst {s rest : Bytes} (hs : seq scheme (lit ":") s = some rest)
    (parts : UriParts) : (parseComplete s parts).1 = true ↔ uri s = some [] ∧ Delimited rest := by
  obtain ⟨e, b, p, he, hpc, hb, -⟩ := parseComplete_spec hs parts
  rw [hpc]
  constructor
  · intro h
    have hd := delimited_of_known he (hb.1 h)
    exact ⟨(uri_of_delimited hs hd he).trans (hb.1 h), hd⟩
  · rintro ⟨hu, hd⟩
    exact hb.2 ((uri_of_delimited hs hd he).symm.trans hu)

theorem uri_of_parseComplete {s : Bytes} {parts : UriParts}
    (h : (parseComplete s parts).1 = true) : uri s = some [] := by
  cases hs : seq scheme (lit ":") s with
  | none =>
      rw [parseComplete_of_none hs] at h
      cases h
  | some rest => exact ((parseComplete_fst hs parts).1 h).1

/-- `parse_complete` accepts what the rule `uri` matches to its end and what has,
behind the scheme's colon, nothing or `//`, `?` or `#`. The host, the port and
the path are then the slices which `authority` and `path_abempty` match inside
`uri`. -/
theorem parseComplete_iff_uri (s : Bytes) (parts : UriParts) :
    ((parseComplete s parts).1 = true ↔
      uri s = some [] ∧ ∃ rest, seq scheme (lit ":") s = some rest ∧ Delimited rest) ∧
    ((parseComplete s parts).1 = true →
      ∃ rest e, seq scheme (lit ":") s = some rest ∧ hierPart rest = some e ∧
        HierSlices parts rest e (parseComplete s parts).2) := by
  cases hs : seq scheme (lit ":") s with
  | none => simp [parseComplete_of_none hs]
  | some rest =>
      constructor
      · rw [parseComplete_fst hs]
        simp
      · intro h
        obtain ⟨-, hd⟩ := (parseComplete_fst hs parts).1 h
        obtain ⟨e, b, p, he, hpc, -, hslices⟩ := parseComplete_spec hs parts
        rw [hpc]
        exact ⟨rest, e, rfl, hd.hierPart_eq.trans he, hslices⟩

/-! ### Complete URIs before `parse_uri` -/

theorem takeWhile_ne_append {w r : Bytes} {d : UInt8} (h : d ∉ w) :
    (w ++ d :: r).takeWhile (· ≠ d) = w := by
  rw [List.takeWhile_append_of_pos (by simpa using fun c hc (hcd : c = d) => h (hcd ▸ hc))]
  simp

/-- A scheme ends at the first colon of the text. -/
theorem schemeColon_eq {s rest : Bytes} (h : seq scheme (lit ":") s = some rest) :
    s = s.takeWhile (· ≠ chr ':') ++ chr ':' :: rest ∧ s.takeWhile (· ≠ chr ':') ≠ [] := by
  obtain ⟨r, hsch, hcolon⟩ := seq_eq_some_iff.1 h
  obtain ⟨w, rfl, hw⟩ := scheme_within s r hsch
  obtain ⟨v, hv, hne⟩ := scheme_consumes _ r hsch
  obtain rfl : w = v := List.append_cancel_right hv
  obtain rfl : r = chr ':' :: rest := lit_eq_some hcolon
  have hfree : chr ':' ∉ w := fun hmem => hw _ hmem (by decide)
  rw [takeWhile_ne_append hfree]
  exact ⟨rfl, hne⟩

/-- The scheme of a text that `parse_complete` accepts is what stands before its
first colon. -/
theorem parseComplete_scheme {s : Bytes} {p : UriParts} (h : parseComplete s .empty = (true, p)) :
    p.scheme.chars = s.takeWhile (· ≠ chr ':') := by
  obtain ⟨c, hsome, rfl, hfills⟩ := parseComplete_eq_true h
  obtain ⟨w, hw⟩ := Option.isSome_iff_exists.1 hsome
  have hfree : chr ':' ∉ w := fun hmem => c.scheme_free w hw _ hmem (by decide)
  rw [hfills.scheme, Cut.text, hw, ended, List.append_assoc, List.singleton_append,
    takeWhile_ne_append hfree]
  rfl

/-- A complete URI whose scheme is followed by an authority, a query, a fragment
or nothing is reported with its scheme and never as an authority. One of another
shape that `parse_authority` accepts is reported in that form. -/
theorem parseUri_of_uri {s : Bytes} (h : uri s = some []) :
    ∃ rest, s = s.takeWhile (· ≠ chr ':') ++ chr ':' :: rest ∧
      (Delimited rest → parseUri s ≠ .empty ∧
        (parseUri s).scheme.chars = s.takeWhile (· ≠ chr ':') ∧ (parseUri s).isAuthority = false) ∧
      (¬Delimited rest → ∀ p, parseAuthority s .empty = (true, p) →
        parseUri s = p ∧ (parseUri s).scheme.chars = []) := by
  rw [uri_eq] at h
  obtain ⟨rest, hs, -⟩ := seq_eq_some_iff.1 h
  rw [← uri_eq] at h
  obtain ⟨htext, hne⟩ := schemeColon_eq hs
  refine ⟨rest, htext, ?_, ?_⟩
  · intro hd
    have htrue := (parseComplete_fst hs .empty).2 ⟨h, hd⟩
    obtain ⟨p, hp⟩ : ∃ p, parseComplete s .empty = (true, p) := ⟨_, Prod.ext htrue rfl⟩
    have hscheme := parseComplete_scheme hp
    have hparse : parseUri s = p := by simp only [parseUri, hp]
    rw [← hscheme] at hne ⊢
    rw [hparse]
    refine ⟨?_, rfl, ?_⟩
    · rintro rfl
      exact hne rfl
    · simp [BasicUriParts.isAuthority, hne]
  · intro hd p hp
    have hfalse : (parseComplete s .empty).1 = false := by
      rw [Bool.eq_false_iff, Ne, parseComplete_fst hs]
      exact fun hcontra => hd hcontra.2
    have hparse : parseUri s = p := by
      obtain ⟨p', hp'⟩ : ∃ p', parseComplete s .empty = (false, p') := ⟨_, Prod.ext hfalse rfl⟩
      simp only [parseUri, hp', hp]
    obtain ⟨c, hc, -, hfills⟩ := parseAuthority_eq_true hp
    rw [hparse, hfills.scheme, hc]
    exact ⟨rfl, rfl⟩

/-- A text of each shape: a query behind the colon, and a path that is no part of an
authority. -/
theorem parseUri_of_uri_shapes :
    (parseUri (ascii "foof:?q") ≠ .empty ∧ (parseUri (ascii "foof:?q")).scheme.chars = ascii "foof" ∧
      (parseUri (ascii "foof:?q")).isAuthority = false) ∧
      ∃ p, parseAuthority (ascii "file:/p") .empty = (true, p) ∧ parseUri (ascii "file:/p") = p ∧
        (parseUri (ascii "file:/p")).scheme.chars = [] := by
  have hrest {w r rest : Bytes} (hw : chr ':' ∉ w) (h : w ++ chr ':' :: r =
      (w ++ chr ':' :: r).takeWhile (· ≠ chr ':') ++ chr ':' :: rest) : rest = r := by
    rw [takeWhile_ne_append hw] at h
    exact (List.cons.inj (List.append_cancel_left h)).2.symm
  have hquery : ascii "foof:?q" = ascii "foof" ++ chr ':' :: ascii "?q" := by decide
  have hpath : ascii "file:/p" = ascii "file" ++ chr ':' :: ascii "/p" := by decide
  rw [hquery, hpath]
  constructor
  · obtain ⟨rest, htext, hfirst, -⟩ := parseUri_of_uri (s := ascii "foof" ++ chr ':' :: ascii "?q")
      (by decide +kernel)
    obtain rfl := hrest (by decide) htext
    obtain ⟨hne, hscheme, hauth⟩ := hfirst (by decide)
    rw [takeWhile_ne_append (by decide)] at hscheme
    exact ⟨hne, hscheme, hauth⟩
  · obtain ⟨rest, htext, -, hother⟩ := parseUri_of_uri (s := ascii "file" ++ chr ':' :: ascii "/p")
      (by decide +kernel)
    obtain rfl := hrest (by decide) htext
    have haccept : (parseAuthority (ascii "file" ++ chr ':' :: ascii "/p") .empty).1 = true := by
      decide +kernel
    have hp : parseAuthority (ascii "file" ++ chr ':' :: ascii "/p") .empty = (true, _) :=
      Prod.ext haccept rfl
    exact ⟨_, hp, hother (by decide) _ hp⟩

/-- A host name before a port is a scheme before a rootless path, and the test
suite asks for the authority form. -/
theorem parseUri_hides_scheme : ¬∀ s : Bytes, uri s = some [] → parseUri s ≠ .empty ∧
    (parseUri s).scheme.chars = s.takeWhile (· ≠ chr ':') ∧ (parseUri s).isAuthority = false := by
  intro h
  have hauth : (parseUri (ascii "www.example.com:80")).isAuthority = true := by decide +kernel
  have := (h (ascii "www.example.com:80") (by decide +kernel)).2.2
  rw [hauth] at this
  exact Bool.noConfusion this

end Foxy.Uri
