import Mathlib.Data.List.TakeWhile
import Foxy.Lib.Framed
import Foxy.Uri.Forms
import Foxy.Uri.PctEncode

/-!
# Foxy.Uri.Targets

What `parse_uri` makes of request targets: of `host ":" port`, as a CONNECT request
has it, and of a complete URI, as a request to a proxy has it.

Of a host and a port `parse_complete` may take the host for a scheme, and then it
stands before digits that are no hierarchical part. The userinfo swallows the whole
text and is given up for want of an `@`. What is left is the authority, where every
kind of host ends at the colon behind it.
-/

namespace Foxy.Uri

open Peg X3

/-! ### Hosts before a colon -/

theorem unreserved_local : Local (· ∉ ascii ":/?#[]@") unreserved :=
  unreserved_of (local_compositional _) alpha_local digit_local (charOf_local (by simp [charSets]))

theorem subDelims_local : Local (· ∉ ascii ":/?#[]@") subDelims :=
  charOf_local (by simp [charSets])

theorem ipV4Address_local : Local (· ∉ ascii ":/?#[]@") ipV4Address := by
  have hP := local_compositional fun c => c ∉ ascii ":/?#[]@"
  have hlits : ∀ l ∈ ["25", "2", "1"], (ascii l).all (· ∉ ascii ":/?#[]@") = true := by decide
  have hsets : ∀ set ∈ ["0-5", "0-4", "1-9"], (set, ":/?#[]@") ∈ charSets := by simp [charSets]
  have hoctet : Local (· ∉ ascii ":/?#[]@") decOctet :=
    decOctet_of hP digit_local (fun l hl => local_lit (hlits l hl))
      fun set hset => charOf_local (hsets set hset)
  exact ipV4Address_of hP hoctet (local_lit (by decide))

/-- Addresses and names end at a delimiter. -/
theorem name_local : Local (· ∉ ascii ":/?#[]@") (alt ipV4Address regName) := by
  have hP := local_compositional fun c => c ∉ ascii ":/?#[]@"
  exact hP.alt ipV4Address_local
    (regName_of hP (nameChar_of hP unreserved_local pctEncoded_local subDelims_local))

/-- What stands between brackets ends at the bracket. -/
theorem bracketed_local : Local (· ∉ ascii "/?#[]@") (alt ipV6Address ipVfuture) := by
  have hP := local_compositional fun c => c ∉ ascii "/?#[]@"
  have hx : Local (· ∉ ascii "/?#[]@") xdigit := local_fewer xdigit_local (by decide)
  have hcolon : Local (· ∉ ascii "/?#[]@") (lit ":" : Peg UInt8) := local_lit (by decide)
  have hh16 := h16_of hP hx
  have hls32 := ls32_of hP hh16 hcolon (local_fewer ipV4Address_local (by decide))
  exact hP.alt (ipV6Address_of hP hh16 hcolon (local_lit (by decide)) hls32)
    (ipVfuture_of hP (local_lit (by decide)) hx (local_lit (by decide))
      (local_fewer unreserved_local (by decide)) (local_fewer subDelims_local (by decide)) hcolon)

/-- A literal is closed by its bracket, whatever follows. -/
theorem ipLiteral_append {h : Bytes} (hh : ipLiteral h = some []) (t : Bytes) :
    ipLiteral (h ++ t) = some t := by
  obtain ⟨inner, htext, -⟩ := ipLiteral_eq_some hh
  rw [List.append_nil] at htext
  have hclose (r : Bytes) : alt ipV6Address ipVfuture (inner ++ chr ']' :: r) =
      (alt ipV6Address ipVfuture inner).map (· ++ chr ']' :: r) := by
    refine bracketed_local inner (chr ']' :: r) ?_
    intro c hc
    cases hc
    decide
  have hrule (r : Bytes) : ipLiteral (chr '[' :: (inner ++ chr ']' :: r)) =
      seq (alt ipV6Address ipVfuture) (lit "]") (inner ++ chr ']' :: r) := by
    rw [ipLiteral, seq_assoc]
    rfl
  -- the literal by itself says that the address is all there is between the brackets
  rw [htext, hrule [], seq_eq_some_iff] at hh
  obtain ⟨r, hinner, hbracket⟩ := hh
  rw [hclose] at hinner
  obtain ⟨rest, hrest, rfl⟩ := Option.map_eq_some_iff.1 hinner
  obtain rfl : rest = [] := by
    have hlit := lit_eq_some hbracket
    exact List.append_left_eq_self.1 hlit
  have hall : ipLiteral (chr '[' :: (inner ++ chr ']' :: t)) = some t := by
    rw [hrule, seq, hclose, hrest]
    exact lit_append (by decide) t
  rw [htext, List.cons_append, List.append_assoc]
  exact hall

/-- A host before a colon is the same host as by itself. -/
theorem host_before_colon {h : Bytes} (hne : h ≠ []) (hh : host h = some []) (d : Bytes) :
    host (h ++ chr ':' :: d) = some (chr ':' :: d) := by
  rw [host, alt_assoc] at hh ⊢
  cases hl : ipLiteral h with
  | some r =>
      rw [alt_eq_left hl, Option.some.injEq] at hh
      subst hh
      exact alt_eq_left (ipLiteral_append hl _)
  | none =>
      rw [alt_eq_right hl] at hh
      have hopen : chr '[' ∉ h := fun hmem =>
        (within_alt ipV4Address_within regName_within).all hh _ hmem (by decide)
      have hnone : ipLiteral (h ++ chr ':' :: d) = none := by
        have hlit : lit "[" (h ++ chr ':' :: d) = none := by
          refine lit_of_head_ne (c := chr '[') rfl ?_
          intro hhead
          rw [List.head?_append_of_ne_nil _ hne] at hhead
          exact hopen (List.mem_of_head? hhead)
        simp only [ipLiteral, seq, hlit]
      have hname := name_local h (chr ':' :: d) (by
        intro c hc
        cases hc
        decide)
      rw [alt_eq_right hnone, hname, hh]
      rfl

/-! ### A host and a port -/

section
variable {h d : Bytes} (hne : h ≠ []) (hh : host h = some []) (hd : d ≠ [])
  (hdigits : ∀ c ∈ d, isDigit c.toNat = true)
include hdigits

theorem port_digits : port d = some [] := by
  rw [port, digit, star_satisfy, List.dropWhile_eq_nil_iff.2 hdigits]

include hd

/-- A port is no hierarchical part. -/
theorem not_delimited_digits : ¬Delimited d := by
  cases d with
  | nil => exact absurd rfl hd
  | cons c d =>
      have hc := hdigits c List.mem_cons_self
      have hmark : c ∉ ascii "/?#" := by
        intro hmem
        have hall : (ascii "/?#").all (fun c => !isDigit c.toNat) = true := by decide
        simpa [hc] using List.all_eq_true.1 hall c hmem
      intro hdelimited
      rcases hdelimited with h | ⟨r, hr⟩ | h | h
      · cases h
      · obtain rfl : chr '/' = c := (List.cons.inj hr).1
        exact hmark (by decide)
      · obtain rfl : c = chr '?' := Option.some.inj h
        exact hmark (by decide)
      · obtain rfl : c = chr '#' := Option.some.inj h
        exact hmark (by decide)

include hh

/-- Where the host is a scheme for `parse_complete`, digits stand behind its colon. -/
theorem parseComplete_hostPort : (parseComplete (h ++ chr ':' :: d) .empty).1 = false := by
  cases hs : seq scheme (lit ":") (h ++ chr ':' :: d) with
  | none => exact parseComplete_of_none hs _
  | some rest =>
      rw [Bool.eq_false_iff, Ne, parseComplete_fst hs]
      intro hcomplete
      obtain ⟨htext, -⟩ := schemeColon_eq hs
      rcases hostShape_of_host hh with hfree | ⟨inner, rfl, -⟩
      · have hcolon : chr ':' ∉ h := fun hmem => hfree _ hmem (by decide)
        rw [takeWhile_ne_append hcolon] at htext
        obtain ⟨-, rfl⟩ := List.cons.inj (List.append_cancel_left htext)
        exact not_delimited_digits hd hdigits hcomplete.2
      · -- no scheme begins with a bracket
        cases hs

include hne

omit hd in
theorem parseAuthority_hostPort :
    parseAuthority (h ++ chr ':' :: d) .empty = (true, { BasicUriParts.empty with
      host := slice (h ++ chr ':' :: d) (chr ':' :: d), port := slice d [], path := slice [] [] }) := by
  have hat : chr '@' ∉ h ++ chr ':' :: d := by
    intro hmem
    rcases List.mem_append.1 hmem with hmem | hmem
    · exact (hostShape_of_host hh).at_notMem hmem
    · rcases List.mem_cons.1 hmem with hmem | hmem
      · exact absurd hmem (by decide)
      · exact absurd (hdigits _ hmem) (by decide)
  have huser := optUserinfo_absent hat (t := []) (by simp)
  rw [List.append_nil] at huser
  have hbegin : thenCapture (opt (seq userinfo (lit "@"))) (raw host) (h ++ chr ':' :: d)
      BasicUriParts.empty.host =
      (some (chr ':' :: d), slice (h ++ chr ':' :: d) (chr ':' :: d)) := by
    simp only [thenCapture, huser, raw_of_some (host_before_colon hne hh d)]
  have hport (v : View) : optCapture (thenCapture (lit ":") (raw port)) (chr ':' :: d) v =
      (some [], slice d []) :=
    optLed_of_some (lit_append (by decide) d) (port_digits hdigits) v
  simp only [parseAuthority, hbegin, parsePortPath, hport]
  rfl

end

/-- A host and a port behind a colon are an authority. -/
theorem parseUri_hostPort {h d : Bytes} (hne : h ≠ []) (hh : host h = some []) (hd : d ≠ [])
    (hdigits : ∀ c ∈ d, isDigit c.toNat = true) :
    (parseUri (h ++ ascii ":" ++ d)).scheme.chars = [] ∧
      (parseUri (h ++ ascii ":" ++ d)).host.chars = h ∧
      (parseUri (h ++ ascii ":" ++ d)).port.chars = d ∧
      (parseUri (h ++ ascii ":" ++ d)).path.chars = [] ∧
      (parseUri (h ++ ascii ":" ++ d)).query.chars = [] ∧
      (parseUri (h ++ ascii ":" ++ d)).fragment.chars = [] ∧
      (parseUri (h ++ ascii ":" ++ d)).isAuthority = true ∧
      (parseUri (h ++ ascii ":" ++ d)).isAbsolute = false ∧
      (parseUri (h ++ ascii ":" ++ d)).isHttp = false := by
  have htext : h ++ ascii ":" ++ d = h ++ chr ':' :: d := by
    rw [List.append_assoc]
    rfl
  obtain ⟨p, hcomplete⟩ : ∃ p, parseComplete (h ++ chr ':' :: d) .empty = (false, p) :=
    ⟨_, Prod.ext (parseComplete_hostPort hh hd hdigits) rfl⟩
  rw [htext]
  simp only [parseUri, hcomplete, parseAuthority_hostPort hne hh hdigits]
  refine ⟨rfl, slice_append _ _, slice_all d, rfl, rfl, rfl, ?_, rfl, rfl⟩
  have hhost : (slice (h ++ chr ':' :: d) (chr ':' :: d)).chars.isEmpty = false := by
    rw [slice_append]
    simpa using hne
  simp only [BasicUriParts.isAuthority, hhost]
  rfl

/-- A host that is also a scheme. -/
theorem parseUri_hostPort_localhost :
    (parseUri (ascii "localhost" ++ ascii ":" ++ ascii "80")).host.chars = ascii "localhost" ∧
      (parseUri (ascii "localhost" ++ ascii ":" ++ ascii "80")).isAuthority = true := by
  have h := parseUri_hostPort (h := ascii "localhost") (d := ascii "80") (by decide) (by decide +kernel)
    (by decide) (by decide +kernel)
  exact ⟨h.2.1, h.2.2.2.2.2.2.1⟩

/-! ### Absolute URIs -/

/-- In a URI nothing behind the first number sign is one. -/
theorem numberSign_notMem {front f : Bytes} (h : uri (front ++ chr '#' :: f) = some [])
    (hfront : chr '#' ∉ front) : chr '#' ∉ f := by
  obtain ⟨r, habsolute, hopt⟩ := seq_eq_some_iff.1 h
  obtain ⟨w, htext, hw⟩ := absoluteUri_within _ r habsolute
  have hsign : chr '#' ∉ w := fun hmem => hw _ hmem (by decide)
  cases hl : lit "#" r with
  | none =>
      -- without a fragment the number sign would be in front of it
      simp only [opt, seq, hl, Option.some.injEq] at hopt
      rw [hopt, List.append_nil] at htext
      exact absurd (by rw [← htext]; simp) hsign
  | some t =>
      obtain rfl : r = chr '#' :: t := lit_eq_some hl
      obtain ⟨-, rfl⟩ := Lib.append_cons_inj_of_notMem hfront hsign htext
      obtain ⟨e, he⟩ : ∃ e, fragment f = some e := total_star _ f
      simp only [opt, seq, hl, he, Option.some.injEq] at hopt
      rw [hopt] at he
      exact fun hmem => fragment_within.all he _ hmem (by decide)

/-- What stands before the fragment. -/
theorem Cut.text_fragment (c : Cut) : ∃ front, c.text = front ++ led '#' c.fragment ∧
    chr '#' ∉ front := by
  refine ⟨ended ':' c.scheme ++ (slashed c.authority ++ c.path) ++ led '?' c.query, ?_, ?_⟩
  · simp only [Cut.text, List.append_assoc]
  · intro hmem
    rcases List.mem_append.1 hmem with hmem | hmem
    · exact c.notMem_front (Or.inr rfl) hmem
    · cases hq : c.query with
      | none => simp [hq, led] at hmem
      | some w =>
          rw [hq, led] at hmem
          rcases List.mem_cons.1 hmem with hmark | hmem
          · exact absurd hmark (by decide)
          · exact c.query_free w hq _ hmem (by decide)

/-- Of the complete URIs, those that end with a number sign are absolute for
`is_absolute`, and for the RFC they have a fragment. On all others the two agree. -/
theorem isAbsolute_absoluteUri_iff {s : Bytes} (h : (parseComplete s .empty).1 = true) :
    ((parseUri s).isAbsolute = true ↔ absoluteUri s = some []) ↔ s.getLast? ≠ some (chr '#') := by
  have hparse : parseComplete s .empty = (true, parseUri s) := by
    obtain ⟨p, hp⟩ : ∃ p, parseComplete s .empty = (true, p) := ⟨_, Prod.ext h rfl⟩
    simp only [parseUri, hp]
  obtain ⟨c, hscheme, rfl, hfills⟩ := parseComplete_eq_true hparse
  have huri := uri_of_parseComplete h
  have habsolute : absoluteUri c.text = some [] ↔ chr '#' ∉ c.text :=
    ⟨fun hall hmem => absoluteUri_within.all hall _ hmem (by decide), absoluteUri_of_uri huri⟩
  have hparts : (parseUri c.text).isAbsolute = true ↔ c.fragment.getD [] = [] := by
    obtain ⟨w, hw⟩ := Option.isSome_iff_exists.1 hscheme
    have hne : (parseUri c.text).scheme.chars ≠ [] := by
      rw [hfills.scheme, hw]
      exact c.scheme_ne w hw
    simp [BasicUriParts.isAbsolute, hne, hfills.fragment]
  obtain ⟨front, htext, hfront⟩ := c.text_fragment
  rw [habsolute, hparts]
  rw [htext] at huri ⊢
  cases hf : c.fragment with
  | none =>
      simp only [led, List.append_nil, Option.getD_none]
      exact iff_of_true (by simp [hfront]) fun hlast => hfront (List.mem_of_getLast? hlast)
  | some f =>
      rw [hf] at huri
      have hsign := numberSign_notMem huri hfront
      have hmem : chr '#' ∈ front ++ led '#' (some f) := by simp [led]
      cases f with
      | nil =>
          refine iff_of_false (fun hiff => hiff.1 rfl hmem) fun hlast => hlast ?_
          exact List.getLast?_append_of_ne_nil front (by simp [led])
      | cons b w =>
          refine iff_of_true (iff_of_false (by simp) fun hnot => hnot hmem) ?_
          intro hlast
          have hlast' : (b :: w).getLast? = some (chr '#') := by
            rw [← hlast, led, List.getLast?_append_of_ne_nil front (by simp), List.getLast?_cons_cons]
          exact hsign (List.mem_of_getLast? hlast')

theorem isAbsolute_absoluteUri_query :
    (parseComplete (ascii "http://a?q") .empty).1 = true ∧
      ((parseUri (ascii "http://a?q")).isAbsolute = true ↔
        absoluteUri (ascii "http://a?q") = some []) := by
  have h : (parseComplete (ascii "http://a?q") .empty).1 = true := rfl
  exact ⟨h, (isAbsolute_absoluteUri_iff h).2 (by decide)⟩

/-- An empty fragment. -/
theorem isAbsolute_empty_fragment :
    (parseComplete (ascii "http://a#") .empty).1 = true ∧
      ¬((parseUri (ascii "http://a#")).isAbsolute = true ↔
        absoluteUri (ascii "http://a#") = some []) := by
  have habsolute : (parseUri (ascii "http://a#")).isAbsolute = true := rfl
  have hrule : absoluteUri (ascii "http://a#") = some (ascii "#") := rfl
  refine ⟨rfl, ?_⟩
  intro h
  have hall := h.1 habsolute
  rw [hrule] at hall
  cases hall

end Foxy.Uri
