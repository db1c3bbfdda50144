import Foxy.Uri.Grammar
import Foxy.Uri.Reference

/-!
# Foxy.Uri.Forms

Request targets. RFC 7230 knows an authority-form, which is an `authority`, and
an absolute-form, which is an `absolute-URI`.

`is_authority` and `is_absolute` look at the parts of a parsed target, where a
query or a fragment that is there but empty looks like one that is not. So they
agree with the rules up to the marks `?` and `#`.
-/

namespace Foxy.Uri

open Peg X3

/-! ### The marks of a cut text -/

/-- Before the query and the fragment there is no mark. -/
theorem Cut.notMem_front (c : Cut) {b : UInt8} (hb : b = chr '?' ∨ b = chr '#') :
    b ∉ ended ':' c.scheme ++ (slashed c.authority ++ c.path) := by
  have hmark : b ∈ ascii "?#" := by
    rcases hb with rfl | rfl <;> decide
  intro hmem
  rcases List.mem_append.1 hmem with hmem | hmem
  · cases hs : c.scheme with
    | none => simp [hs, ended] at hmem
    | some w =>
        rw [hs, ended] at hmem
        rcases List.mem_append.1 hmem with hw | hcolon
        · exact (Free.mono (c.scheme_free w hs) (by decide : ascii "?#" ⊆ ascii ":/?#")) b hw hmark
        · rw [List.mem_singleton.1 hcolon] at hmark
          exact absurd hmark (by decide)
  · rcases List.mem_append.1 hmem with hmem | hmem
    · cases ha : c.authority with
      | none => simp [ha, slashed] at hmem
      | some a =>
          rw [ha, slashed] at hmem
          rcases List.mem_append.1 hmem with hslash | ha
          · have hfree : Free "?#" (ascii "//") := by
              intro c hc
              obtain rfl : c = chr '/' := by simpa [ascii] using hc
              decide
            exact hfree b hslash hmark
          · exact (a.text_free.mono (by decide : ascii "?#" ⊆ ascii "/?#")) b ha hmark
    · exact c.path_free b hmem hmark

theorem Cut.mark_mem (c : Cut) {b : UInt8} (hb : b = chr '?' ∨ b = chr '#') :
    b ∈ c.text ↔ b ∈ led '?' c.query ∨ b ∈ led '#' c.fragment := by
  have htext : c.text = ended ':' c.scheme ++ (slashed c.authority ++ c.path) ++
      (led '?' c.query ++ led '#' c.fragment) := by
    simp [Cut.text]
  rw [htext, List.mem_append, or_iff_right (c.notMem_front hb), List.mem_append]

/-- The first question mark leads the query, unless it is in a fragment. -/
theorem Cut.question_mem (c : Cut) (hf : c.fragment.getD [] = []) :
    chr '?' ∈ c.text ↔ c.query.isSome := by
  rw [c.mark_mem (Or.inl rfl)]
  cases hq : c.query with
  | some w => simp [led]
  | none =>
      cases hfr : c.fragment with
      | none => simp [led]
      | some w =>
          obtain rfl : w = [] := by simpa [hfr] using hf
          simp [led, chr]

/-! ### Where a parsed target comes from -/

theorem parseUri_origin (s : Bytes) :
    parseComplete s .empty = (true, parseUri s) ∨ parseAuthority s .empty = (true, parseUri s) ∨
      parseUri s = .empty := by
  unfold parseUri
  cases hc : parseComplete s .empty with
  | mk ok p =>
    cases ok with
    | true => exact Or.inl rfl
    | false =>
        cases ha : parseAuthority s .empty with
        | mk ok' p' =>
          cases ok' with
          | true => exact Or.inr (Or.inl rfl)
          | false => exact Or.inr (Or.inr rfl)

/-- Only `parse_complete` fills in a scheme. -/
theorem parseUri_complete {s : Bytes} (h : (parseUri s).scheme.chars ≠ []) :
    parseComplete s .empty = (true, parseUri s) := by
  rcases parseUri_origin s with hc | ha | hempty
  · exact hc
  · obtain ⟨c, hnone, -, hfills⟩ := parseAuthority_eq_true ha
    exact absurd (by rw [hfills.scheme, hnone]; rfl) h
  · exact absurd (by rw [hempty]; rfl) h

/-- Only `parse_authority` leaves it empty beside a host. -/
theorem parseUri_authority {s : Bytes} (h : (parseUri s).isAuthority = true) :
    parseAuthority s .empty = (true, parseUri s) := by
  rcases parseUri_origin s with hc | ha | hempty
  · obtain ⟨c, hsome, -, hfills⟩ := parseComplete_eq_true hc
    obtain ⟨w, hw⟩ := Option.isSome_iff_exists.1 hsome
    have hscheme : (parseUri s).scheme.chars ≠ [] := by
      rw [hfills.scheme, hw]
      exact c.scheme_ne w hw
    simp [BasicUriParts.isAuthority, hscheme] at h
  · exact ha
  · rw [hempty] at h
    cases h

/-- A target with a scheme, cut into its parts. -/
theorem parseUri_cut {s : Bytes} (h : (parseUri s).scheme.chars ≠ []) :
    ∃ c : Cut, c.text = s ∧ c.Fills (parseUri s) ∧ reference s = (parseUri s).texts := by
  obtain ⟨c, -, rfl, hfills⟩ := parseComplete_eq_true (parseUri_complete h)
  exact ⟨c, rfl, hfills, Cut.reference_text hfills⟩

/-- An authority, cut into its parts. -/
theorem parseUri_authority_texts {s : Bytes} (h : (parseUri s).isAuthority = true) :
    reference (ascii "//" ++ s) = (parseUri s).texts := by
  obtain ⟨c, -, htext, hfills⟩ := parseAuthority_eq_true (parseUri_authority h)
  rw [← htext]
  exact Cut.reference_text hfills

theorem scheme_ne_of_isAbsolute {p : UriParts} (h : p.isAbsolute = true) :
    p.scheme.chars ≠ [] ∧ p.fragment.chars = [] := by
  simpa [BasicUriParts.isAbsolute] using h

/-! ### The forms -/

/-- An optional part whose delimiter is not in the text is absent. -/
theorem optLed_absent {l : String} {d : UInt8} {p : Peg UInt8} {s r : Bytes}
    (hl : (ascii l).head? = some d) (hd : d ∉ s) (h : opt (seq (lit l) p) s = some r) : s = r := by
  have hnone : lit l s = none := lit_of_head_ne hl fun hhead => hd (List.mem_of_head? hhead)
  simpa [opt, seq, hnone] using h

/-- Without a number sign a URI is absolute. -/
theorem absoluteUri_of_uri {s : Bytes} (h : uri s = some []) (hmem : chr '#' ∉ s) :
    absoluteUri s = some [] := by
  obtain ⟨r, hr, hopt⟩ := seq_eq_some_iff.1 h
  obtain ⟨w, rfl, -⟩ := absoluteUri_within s r hr
  have hrest : r = [] :=
    optLed_absent (d := chr '#') rfl (fun hmem' => hmem (List.mem_append_right _ hmem')) hopt
  rw [hrest] at hr ⊢
  exact hr

/-- A target with a scheme and no fragment is in absolute-form when it also has
no number sign. -/
theorem absoluteUri_iff {s : Bytes} (h : (parseUri s).isAbsolute = true) :
    absoluteUri s = some [] ↔ chr '#' ∉ s := by
  constructor
  · intro habs hmem
    exact absoluteUri_within.all habs _ hmem (by simp [ascii])
  · intro hmem
    have hcomplete : (parseComplete s .empty).1 = true := by
      rw [parseUri_complete (scheme_ne_of_isAbsolute h).1]
    exact absoluteUri_of_uri (uri_of_parseComplete hcomplete) hmem

/-- A target that is nothing but a host and a port is in authority-form when it
also has no mark behind them. -/
theorem authority_iff {s : Bytes} (h : (parseUri s).isAuthority = true) :
    authority s = some [] ↔ chr '?' ∉ s ∧ chr '#' ∉ s := by
  constructor
  · intro hauth
    exact ⟨fun hmem => authority_within.all hauth _ hmem (by simp [ascii]),
      fun hmem => authority_within.all hauth _ hmem (by simp [ascii])⟩
  · rintro ⟨hq, hf⟩
    have hparse := parseUri_authority h
    simp only [BasicUriParts.isAuthority, Bool.and_eq_true] at h
    have hpath : (parseUri s).path.chars = [] := by simpa using h.1.1.2
    obtain ⟨b, hb⟩ := total_opt (seq userinfo (lit "@")) s
    obtain ⟨c, hc⟩ := host_total b
    simp only [parseAuthority, thenCapture, hb, raw_of_some hc] at hparse
    obtain ⟨d, e, vq, vf, ok, hd, he, hpp, hok⟩ :=
      parsePortPath_spec c { BasicUriParts.empty with host := slice b c }
    rw [hpp, Prod.mk.injEq] at hparse
    obtain ⟨rfl, hparts⟩ := hparse
    -- the path is empty, so the port ends where the query would begin
    obtain ⟨w, hde, -⟩ := pathAbempty_within d e he
    have hw : w = [] := by
      rw [← hparts] at hpath
      rw [← slice_append w e, ← hde]
      exact hpath
    obtain rfl : d = e := by simpa [hw] using hde
    have hall : authority s = some d :=
      seq_eq_some_iff.2 ⟨c, seq_eq_some_iff.2 ⟨b, hb, hc⟩, hd⟩
    obtain ⟨v, rfl, -⟩ := authority_within s d hall
    obtain ⟨r, hquery, hfragment⟩ := seq_eq_some_iff.1 (hok.1 rfl)
    obtain rfl : d = r :=
      optLed_absent (d := chr '?') rfl (fun hmem => hq (List.mem_append_right _ hmem)) hquery
    have hnil : d = [] :=
      optLed_absent (d := chr '#') rfl (fun hmem => hf (List.mem_append_right _ hmem)) hfragment
    rw [hnil] at hall ⊢
    exact hall

end Foxy.Uri
