import Mathlib.Data.List.TakeWhile
import Foxy.Lib.Framed
import Foxy.Uri.Forms
import Foxy.Uri.PctEncode

/-!
# Foxy.Uri.Choices

What ordered choice makes of the rules `path`, `scheme` and `uri_reference` of
`foxy/uri.hpp`.

An alternative that matches, if only the empty beginning of a text, hides those
behind it. In `path` the first alternative always matches. In `uri_reference` it
matches only what a relative reference cannot: a scheme and its colon.
-/

namespace Foxy.Uri

open Peg X3

/-! ### Paths -/

theorem ne_pct_of_isPchar {c : UInt8} (hc : isPchar c = true) : c ≠ chr '%' := by
  intro heq
  rw [heq] at hc
  exact absurd hc (by decide)

theorem satisfy_takes {f : UInt8 → Bool} (hf : ∀ c, f c = true → isPchar c = true) :
    Takes (satisfy f) (Coded PathChar) :=
  takes_satisfy fun c hc => .plain (ne_pct_of_isPchar (hf c hc)) (Or.inl (hf c hc)) .nil

theorem coded_compositional (q : UInt8 → Prop) :
    Compositional fun p : Peg UInt8 => Takes p (Coded q) :=
  takes_compositional (closed_coded q)

theorem isPchar_of {c : UInt8} (h : isAlpha c.toNat = true ∨ isDigit c.toNat = true ∨
    charSet (codes "-._~") c.toNat = true ∨ charSet (codes "!$&'()*+,;=") c.toNat = true ∨
    charSet (codes ":@") c.toNat = true) : isPchar c = true := by
  simp only [isPchar, Bool.or_eq_true]
  tauto

theorem nameChar_takes : Takes nameChar (Coded PathChar) := by
  have hP := coded_compositional PathChar
  refine nameChar_of hP (unreserved_of hP (satisfy_takes ?_) (satisfy_takes ?_) (satisfy_takes ?_))
    (pctEncoded_coded _) (satisfy_takes ?_)
  · exact fun c hc => isPchar_of (Or.inl hc)
  · exact fun c hc => isPchar_of (Or.inr (Or.inl hc))
  · exact fun c hc => isPchar_of (Or.inr (Or.inr (Or.inl hc)))
  · exact fun c hc => isPchar_of (Or.inr (Or.inr (Or.inr (Or.inl hc))))

theorem pchar_takes : Takes pchar (Coded PathChar) := by
  refine pchar_of (coded_compositional _) nameChar_takes (satisfy_takes ?_)
  exact fun c hc => isPchar_of (Or.inr (Or.inr (Or.inr (Or.inr hc))))

theorem slash_takes : Takes (charOf "/") (Coded PathChar) := by
  refine takes_satisfy ?_
  intro c hc
  obtain rfl : c = chr '/' := UInt8.toNat_inj.1 (beq_iff_eq.1 hc)
  exact .plain (by decide) (Or.inr rfl) .nil

/-- The two spellings of a slash. -/
theorem lit_slash : (lit "/" : Peg UInt8) = charOf "/" := by
  funext s
  cases s with
  | nil => rfl
  | cons c s =>
      by_cases hc : c = chr '/'
      · rw [hc]
        rfl
      · have hlit : lit "/" (c :: s) = none := lit_of_head_ne (c := chr '/') rfl (by simpa using hc)
        have hchar : charOf "/" (c :: s) = none :=
          if_neg fun h => hc (UInt8.toNat_inj.1 (beq_iff_eq.1 h))
        rw [hlit, hchar]

theorem segments_takes : Takes pathAbempty (Coded PathChar) :=
  pathAbempty_of (coded_compositional _) (segment_of (coded_compositional _) pchar_takes) slash_takes

/-- The body of `segment-nz-nc`. -/
def ncChar : Peg UInt8 := alt nameChar (lit "@")

theorem ncChar_consumes : Consumes ncChar :=
  takes_alt nameChar_consumes (lit_consumes (by decide))

theorem ncChar_within : Within ncChar (· ∉ ascii ":/?#") :=
  within_alt (within_fewer nameChar_within (by decide)) (within_lit (by decide))

theorem segmentNzNc_takes : Takes segmentNzNc (Coded PathChar) := by
  have hat : Takes (lit "@") (Coded PathChar) := by
    intro s r h
    exact ⟨ascii "@", lit_eq_some h, .plain (by decide) (Or.inl rfl) .nil⟩
  exact (coded_compositional _).plus ncChar_consumes ((coded_compositional _).alt nameChar_takes hat)

theorem pathRootless_eq : pathRootless = seq segmentNz pathAbempty := by
  rw [pathRootless, lit_slash, pathAbempty]

theorem pathNoscheme_eq : pathNoscheme = seq segmentNzNc pathAbempty := by
  rw [pathNoscheme, lit_slash, pathAbempty]

theorem pathAbsolute_eq : pathAbsolute = seq (charOf "/") (opt (seq segmentNz pathAbempty)) := by
  rw [pathAbsolute, lit_slash, pathAbempty]

/-- `path-abempty` reads all of a path that is empty or begins with a slash. -/
theorem pathAbempty_complete {s : Bytes} :
    pathAbempty s = some [] ↔ Coded PathChar s ∧ (s = [] ∨ s.head? = some (chr '/')) := by
  constructor
  · intro h
    exact ⟨segments_takes.whole h, pathAbempty_start h⟩
  · intro h
    have hall := pathAbempty_coded h.1 h.2 (t := []) (by simp)
    rwa [List.append_nil] at hall

/-- A path that begins with a character of its own. -/
theorem head?_of_plus {p q : Peg UInt8} {s r : Bytes} (hc : Consumes p)
    (hp : Within p (· ∉ ascii "/?#")) (h : seq (plus p) q s = some r) :
    s ≠ [] ∧ s.head? ≠ some (chr '/') := by
  obtain ⟨r₁, hplus, -⟩ := seq_eq_some_iff.1 h
  obtain ⟨r₂, hone, -⟩ := seq_eq_some_iff.1 hplus
  refine ⟨?_, ?_⟩
  · intro hnil
    rw [hnil, hc.nil] at hone
    cases hone
  · intro hhead
    have hnone : p s = none := by
      refine hc.eq_none hp ?_
      intro c hmem hfree
      rw [hhead] at hmem
      cases hmem
      exact hfree (by decide)
    rw [hnone] at hone
    cases hone

/-- `path-rootless` reads all of a path that is not empty and does not begin with a
slash. -/
theorem pathRootless_complete {s : Bytes} : pathRootless s = some [] ↔
    Coded PathChar s ∧ s ≠ [] ∧ s.head? ≠ some (chr '/') := by
  rw [pathRootless_eq]
  constructor
  · intro h
    have htakes : Takes (seq segmentNz pathAbempty) (Coded PathChar) :=
      (coded_compositional _).seq ((coded_compositional _).plus pchar_consumes pchar_takes)
        segments_takes
    exact ⟨htakes.whole h, head?_of_plus pchar_consumes pchar_within h⟩
  · intro h
    obtain ⟨hcoded, hne, hslash⟩ := h
    have hall := segments_coded hcoded (t := []) (by simp)
    rw [List.append_nil] at hall
    obtain ⟨r, hsegment, hrest⟩ := seq_eq_some_iff.1 hall
    obtain ⟨t, hone⟩ : ∃ t, pchar s = some t := by
      cases hcoded with
      | nil => exact absurd rfl hne
      | @plain c w hpct hc _ =>
          rcases hc with hc | rfl
          · exact ⟨w, (pchar_plain hpct w).trans (if_pos hc)⟩
          · exact absurd rfl hslash
      | pct ha hb _ => exact ⟨_, pchar_triplet ha hb _⟩
    refine seq_eq_some_iff.2 ⟨r, ?_, hrest⟩
    rw [segment, star_of_some pchar_consumes hone] at hsegment
    exact seq_eq_some_iff.2 ⟨t, hone, hsegment⟩

theorem pathNoscheme_rootless {s : Bytes} (h : pathNoscheme s = some []) :
    pathRootless s = some [] := by
  have htakes : Takes (seq segmentNzNc pathAbempty) (Coded PathChar) :=
    (coded_compositional _).seq segmentNzNc_takes segments_takes
  have hwithin : Within ncChar (· ∉ ascii "/?#") := within_fewer ncChar_within (by decide)
  rw [pathNoscheme_eq] at h
  exact pathRootless_complete.2 ⟨htakes.whole h, head?_of_plus ncChar_consumes hwithin h⟩

theorem pathAbsolute_abempty {s : Bytes} (h : pathAbsolute s = some []) :
    pathAbempty s = some [] := by
  have hP := coded_compositional PathChar
  rw [pathAbsolute_eq] at h
  have htakes : Takes (seq (charOf "/") (opt (seq segmentNz pathAbempty))) (Coded PathChar) :=
    hP.seq slash_takes (hP.opt (hP.seq (hP.plus pchar_consumes pchar_takes) segments_takes))
  have hcoded := htakes.whole h
  obtain ⟨r, hslash, -⟩ := seq_eq_some_iff.1 h
  obtain ⟨c, rfl, hc⟩ := satisfy_eq_some.1 hslash
  have hchr : c = chr '/' := UInt8.toNat_inj.1 (beq_iff_eq.1 hc)
  exact pathAbempty_complete.2 ⟨hcoded, Or.inr (by rw [hchr]; rfl)⟩

/-- The first alternative of `path` matches every text, so it is the only one. -/
theorem path_eq (s : Bytes) : path s = pathAbempty s := by
  obtain ⟨r, hr⟩ : ∃ r, pathAbempty s = some r := total_star _ s
  rw [hr]
  exact alt_eq_left (alt_eq_left (alt_eq_left (alt_eq_left hr)))

/-- `path` reads all that one of its alternatives reads, but for the paths that are
not empty and do not begin with a slash. -/
theorem path_complete_iff (s : Bytes) :
    (path s = some [] ↔ pathAbempty s = some [] ∨ pathAbsolute s = some [] ∨
      pathNoscheme s = some [] ∨ pathRootless s = some [] ∨ pathEmpty s = some []) ↔
    (s = [] ∨ s.head? = some (chr '/') ∨ ¬Coded PathChar s) := by
  rw [path_eq]
  constructor
  · intro h
    by_cases hrootless : pathRootless s = some []
    · exact (pathAbempty_complete.1 (h.2 (Or.inr (Or.inr (Or.inr (Or.inl hrootless)))))).2.imp_right
        Or.inl
    · rw [pathRootless_complete] at hrootless
      by_contra hnone
      obtain ⟨hne, hnone⟩ := not_or.1 hnone
      obtain ⟨hslash, hcoded⟩ := not_or.1 hnone
      exact hrootless ⟨not_not.1 hcoded, hne, hslash⟩
  · intro h
    have hrootless : pathRootless s ≠ some [] := by
      rw [Ne, pathRootless_complete]
      intro hr
      obtain ⟨hcoded, hne, hslash⟩ := hr
      rcases h with h | h | h
      · exact hne h
      · exact hslash h
      · exact h hcoded
    constructor
    · exact Or.inl
    · intro hany
      rcases hany with hp | hp | hp | hp | hp
      · exact hp
      · exact pathAbsolute_abempty hp
      · exact absurd (pathNoscheme_rootless hp) hrootless
      · exact absurd hp hrootless
      · obtain rfl : s = [] := Option.some.inj hp
        rfl

/-- A relative path is a `path-noscheme`, and `path` reads nothing of it. -/
theorem path_hides_noscheme : ¬(path (ascii "a/b") = some [] ↔ pathAbempty (ascii "a/b") = some [] ∨
    pathAbsolute (ascii "a/b") = some [] ∨ pathNoscheme (ascii "a/b") = some [] ∨
    pathRootless (ascii "a/b") = some [] ∨ pathEmpty (ascii "a/b") = some []) := by
  intro h
  have hpath : path (ascii "a/b") = some (ascii "a/b") := rfl
  have hnoscheme : pathNoscheme (ascii "a/b") = some [] := rfl
  have hall := h.2 (Or.inr (Or.inr (Or.inl hnoscheme)))
  rw [hpath] at hall
  cases hall

/-! ### Schemes -/

/-- `scheme` of the RFC: a letter, then letters, digits, `+`, `-` and `.`. -/
def IsScheme (w : Bytes) : Prop :=
  ∃ c v, w = c :: v ∧ isAlpha c.toNat = true ∧
    ∀ d ∈ v, isAlpha d.toNat = true ∨ isDigit d.toNat = true ∨ d ∈ ascii "+-."

/-- The same with commas, of which there is at least one. -/
def HasComma (w : Bytes) : Prop :=
  ∃ c v, w = c :: v ∧ isAlpha c.toNat = true ∧
    (∀ d ∈ v, isAlpha d.toNat = true ∨ isDigit d.toNat = true ∨ d ∈ ascii "+-.,") ∧ chr ',' ∈ v

/-- What the repetition of the rule takes: in `char_("+-.")` the `-` makes a range of
the characters from `+` to `.`. -/
def isSchemeChar (c : UInt8) : Bool :=
  isAlpha c.toNat || isDigit c.toNat || charSet (codes "+-.") c.toNat

theorem isSchemeChar_iff (c : UInt8) : isSchemeChar c = true ↔
    isAlpha c.toNat = true ∨ isDigit c.toNat = true ∨ c ∈ ascii "+-.," := by
  have hrange : codes "+-." = [43, '-'.toNat, 46] := rfl
  have hcodes : codes "+-.," = [43, 45, 46, 44] := rfl
  rw [mem_ascii (by decide), isSchemeChar, hrange, hcodes, charSet, if_pos rfl]
  simp only [charSet, Bool.or_eq_true, Bool.and_eq_true, decide_eq_true_eq, beq_iff_eq,
    List.mem_cons, List.not_mem_nil, or_false, or_assoc]
  refine or_congr_right (or_congr_right ?_)
  omega

theorem comma_only (c : UInt8) : c ∈ ascii "+-.," ↔ c ∈ ascii "+-." ∨ c = chr ',' := by
  rw [show ascii "+-.," = ascii "+-." ++ [chr ','] from rfl, List.mem_append, List.mem_singleton]

theorem scheme_cons (c : UInt8) (t : Bytes) :
    scheme (c :: t) = if isAlpha c.toNat then some (t.dropWhile isSchemeChar) else none := by
  have hchars : alt (alt alpha digit) (charOf "+-.") = satisfy isSchemeChar := by
    rw [alpha, digit, charOf, alt_satisfy, alt_satisfy]
    rfl
  have hone : alpha (c :: t) = if isAlpha c.toNat then some t else none := rfl
  rw [scheme, hchars, seq, hone]
  split_ifs
  · exact star_satisfy _ _
  · rfl

/-- The rule matches schemes, and schemes with commas. -/
theorem scheme_complete {s : Bytes} : scheme s = some [] ↔ IsScheme s ∨ HasComma s := by
  cases s with
  | nil =>
      refine iff_of_false (by simp [scheme, seq, alpha, satisfy]) ?_
      simp [IsScheme, HasComma]
  | cons c t =>
      rw [scheme_cons]
      constructor
      · intro h
        split_ifs at h with hc
        have hall : ∀ d ∈ t, isSchemeChar d = true :=
          List.dropWhile_eq_nil_iff.1 (Option.some.inj h)
        by_cases hcomma : chr ',' ∈ t
        · exact Or.inr ⟨c, t, rfl, hc, fun d hd => (isSchemeChar_iff d).1 (hall d hd), hcomma⟩
        · refine Or.inl ⟨c, t, rfl, hc, ?_⟩
          intro d hd
          rcases (isSchemeChar_iff d).1 (hall d hd) with hd' | hd' | hd'
          · exact Or.inl hd'
          · exact Or.inr (Or.inl hd')
          · rcases (comma_only d).1 hd' with hd' | rfl
            · exact Or.inr (Or.inr hd')
            · exact absurd hd hcomma
      · intro h
        have hall : isAlpha c.toNat = true ∧ ∀ d ∈ t, isSchemeChar d = true := by
          rcases h with ⟨c', t', heq, hc, ht⟩ | ⟨c', t', heq, hc, ht, -⟩
          · cases heq
            refine ⟨hc, fun d hd => (isSchemeChar_iff d).2 ?_⟩
            exact (ht d hd).imp_right (Or.imp_right fun hset => (comma_only d).2 (Or.inl hset))
          · cases heq
            exact ⟨hc, fun d hd => (isSchemeChar_iff d).2 (ht d hd)⟩
        rw [if_pos hall.1, List.dropWhile_eq_nil_iff.2 hall.2]

theorem isSchemeChar_of_isAlpha {c : UInt8} (h : isAlpha c.toNat = true) : isSchemeChar c = true :=
  (isSchemeChar_iff c).2 (Or.inl h)

/-- A scheme ends where none of its characters follows. -/
theorem scheme_local : Local (fun c => isSchemeChar c = true) scheme := by
  refine scheme_of (local_compositional _) (local_satisfy fun c hc => isSchemeChar_of_isAlpha hc)
    (local_satisfy fun c hc => (isSchemeChar_iff c).2 (Or.inr (Or.inl hc))) (local_satisfy ?_)
  intro c hc
  rw [isSchemeChar, Bool.or_eq_true]
  exact Or.inr hc

theorem IsScheme.ne_colon {w : Bytes} (h : IsScheme w) : ∀ c ∈ w, c ≠ chr ':' := by
  have hrule : scheme w = some [] := scheme_complete.2 (Or.inl h)
  intro c hc hcolon
  exact scheme_within.all hrule c hc (by rw [hcolon]; decide)

/-- No scheme has a comma. -/
theorem IsScheme.not_hasComma {w : Bytes} (h : IsScheme w) : ¬HasComma w := by
  intro hcomma
  obtain ⟨c, v, rfl, -, hv⟩ := h
  obtain ⟨c', v', heq, -, -, hmem⟩ := hcomma
  cases heq
  rcases hv _ hmem with h | h | h
  · exact absurd h (by decide)
  · exact absurd h (by decide)
  · exact absurd h (by decide)

/-- The text up to the first colon, with one behind the text. -/
theorem takeWhile_colon (s rest : Bytes) :
    ∃ r, s ++ chr ':' :: rest = s.takeWhile (· ≠ chr ':') ++ chr ':' :: r := by
  induction s with
  | nil => exact ⟨rest, rfl⟩
  | cons c s ih =>
      by_cases hc : c = chr ':'
      · subst hc
        exact ⟨s ++ chr ':' :: rest, rfl⟩
      · obtain ⟨r, hr⟩ := ih
        refine ⟨r, ?_⟩
        rw [List.takeWhile_cons_of_pos (by simpa using hc), List.cons_append, List.cons_append, hr]

theorem scheme_before_colon {w r : Bytes} :
    scheme (w ++ chr ':' :: r) = some (chr ':' :: r) ↔ scheme w = some [] := by
  have hlocal : scheme (w ++ chr ':' :: r) = (scheme w).map (· ++ chr ':' :: r) := by
    refine scheme_local w (chr ':' :: r) ?_
    intro c hc
    cases hc
    decide
  rw [hlocal, Option.map_eq_some_iff]
  constructor
  · intro h
    obtain ⟨w', hw', hnil⟩ := h
    rw [hw', List.append_left_eq_self.1 hnil]
  · intro h
    exact ⟨[], h, rfl⟩

/-- What the first step of `parse_complete` captures is a scheme for the rule, and
it stands before the first colon. -/
theorem schemeStep_eq_some {s rest r : Bytes} {v : View}
    (h : captureThen (raw scheme) (lit ":") (s ++ chr ':' :: rest) .null = (some r, v)) :
    v.chars = s.takeWhile (· ≠ chr ':') ∧ scheme v.chars = some [] ∧
      s ++ chr ':' :: rest = v.chars ++ chr ':' :: r := by
  obtain ⟨htext, hfree, -⟩ := schemeColon_eq_some h
  have htext : s ++ chr ':' :: rest = v.chars ++ chr ':' :: r := by
    rw [htext, ended, List.append_assoc]
    rfl
  have hcolon : chr ':' ∉ v.chars := fun hmem => hfree _ hmem (by decide)
  obtain ⟨r', hr'⟩ := takeWhile_colon s rest
  have hfirst : chr ':' ∉ s.takeWhile (· ≠ chr ':') := fun hmem => by
    simpa using List.mem_takeWhile_imp hmem
  refine ⟨(Lib.append_cons_inj_of_notMem hcolon hfirst (htext.symm.trans hr')).1, ?_, htext⟩
  have hrule : seq scheme (lit ":") (s ++ chr ':' :: rest) = some r := by
    rw [← (captures_raw scheme).before (lit ":"), h]
  obtain ⟨r₁, hscheme, hlit⟩ := seq_eq_some_iff.1 hrule
  rw [htext, lit_eq_some hlit] at hscheme
  exact scheme_before_colon.1 hscheme

/-- `scheme` is the rule of the RFC, and what is captured before a colon is the
longest scheme of the RFC there, on the texts that do not begin with a scheme with
a comma. -/
theorem scheme_rule_iff (s : Bytes) :
    ((scheme s = some [] ↔ IsScheme s) ∧ ∀ rest r v,
      captureThen (raw scheme) (lit ":") (s ++ chr ':' :: rest) .null = (some r, v) →
        Longest IsScheme v.chars (s ++ chr ':' :: rest)) ↔
    ¬HasComma (s.takeWhile (· ≠ chr ':')) := by
  constructor
  · intro h hcomma
    obtain ⟨r, hr⟩ := takeWhile_colon s []
    have hrule : scheme (s ++ [chr ':']) = some (chr ':' :: r) := by
      rw [hr]
      exact scheme_before_colon.2 (scheme_complete.2 (Or.inr hcomma))
    have hstep : captureThen (raw scheme) (lit ":") (s ++ [chr ':']) .null =
        (some r, slice (s ++ [chr ':']) (chr ':' :: r)) := by
      simp only [captureThen, raw_of_some hrule]
      exact Prod.ext (lit_append (by decide) r) rfl
    have hlongest := h.2 [] r _ hstep
    rw [hr, slice_append] at hlongest
    exact hlongest.word.not_hasComma hcomma
  · intro hcomma
    constructor
    · rw [scheme_complete]
      constructor
      · intro h
        refine h.resolve_right fun hs => hcomma ?_
        have hrule : scheme s = some [] := scheme_complete.2 (Or.inr hs)
        have hall : ∀ c ∈ s, decide (c ≠ chr ':') = true := by
          intro c hc
          simp only [decide_eq_true_eq]
          intro heq
          exact scheme_within.all hrule c hc (by rw [heq]; decide)
        rwa [List.takeWhile_eq_self_iff.2 hall]
      · exact Or.inl
    · intro rest r v hstep
      obtain ⟨hfirst, hrule, htext⟩ := schemeStep_eq_some hstep
      have hscheme : IsScheme v.chars := by
        refine (scheme_complete.1 hrule).resolve_right fun h => hcomma ?_
        rwa [← hfirst]
      rw [htext]
      refine .append hscheme (fun w hw => hw.ne_colon) ?_
      intro c hc
      cases hc
      simp

/-- A comma in a scheme. -/
theorem scheme_comma : scheme (ascii "a,b") = some [] ∧ ¬IsScheme (ascii "a,b") := by
  have hall : (ascii ",b").all isSchemeChar = true := by decide
  have hcomma : HasComma (ascii "a,b") :=
    ⟨chr 'a', ascii ",b", rfl, rfl,
      fun d hd => (isSchemeChar_iff d).1 (List.all_eq_true.1 hall d hd), by decide⟩
  exact ⟨scheme_complete.2 (Or.inr hcomma), fun h => h.not_hasComma hcomma⟩

/-! ### References -/

/-- The characters of a scheme are those of a segment without a colon. -/
theorem isNameChar_of_isSchemeChar {c : UInt8} (hc : isSchemeChar c = true) :
    isNameChar c = true ∧ c ≠ chr '%' := by
  have hset : (ascii "+-.,").all isNameChar = true := by decide
  refine ⟨?_, ?_⟩
  · rcases (isSchemeChar_iff c).1 hc with hletter | hdigit | hmem
    · rw [isNameChar, hletter, Bool.true_or, Bool.true_or, Bool.true_or]
    · rw [isNameChar, hdigit, Bool.or_true, Bool.true_or, Bool.true_or]
    · exact List.all_eq_true.1 hset c hmem
  · intro heq
    rw [heq] at hc
    exact absurd hc (by decide)

theorem ncChar_scheme {c : UInt8} (hc : isSchemeChar c = true) (r : Bytes) :
    ncChar (c :: r) = some r := by
  obtain ⟨hname, hpct⟩ := isNameChar_of_isSchemeChar hc
  exact alt_eq_left ((nameChar_plain hpct r).trans (if_pos hname))

/-- A scheme is a segment without a colon, and it ends at the colon. -/
theorem segmentNzNc_scheme {w t : Bytes} (hw : scheme w = some []) :
    segmentNzNc (w ++ chr ':' :: t) = some (chr ':' :: t) := by
  cases w with
  | nil => cases hw
  | cons c v =>
      rw [scheme_cons] at hw
      split_ifs at hw with hc
      have hall : ∀ d ∈ v, isSchemeChar d = true :=
        List.dropWhile_eq_nil_iff.1 (Option.some.inj hw)
      have hstop : ncChar (chr ':' :: t) = none := by
        refine ncChar_consumes.eq_none ncChar_within ?_
        intro d hd hfree
        cases hd
        exact hfree (by decide)
      have hpct : chr '%' ∉ v := fun hmem => (isNameChar_of_isSchemeChar (hall _ hmem)).2 rfl
      have hrest : star ncChar (v ++ chr ':' :: t) = some (chr ':' :: t) := by
        refine star_coded ncChar_consumes ?_ ?_ (coded_of_free hpct hall) hstop
        · exact fun d r _ hd => ncChar_scheme hd r
        · exact fun a b r ha hb => alt_eq_left (nameChar_triplet ha hb r)
      exact seq_eq_some_iff.2 ⟨v ++ chr ':' :: t, ncChar_scheme (isSchemeChar_of_isAlpha hc) _, hrest⟩

/-- Of a text that begins with a scheme and its colon, `relative-ref` reads the
scheme. -/
theorem relativeRef_of_scheme {s rest : Bytes} (h : seq scheme (lit ":") s = some rest) :
    relativeRef s = some (chr ':' :: rest) := by
  obtain ⟨r, hscheme, hlit⟩ := seq_eq_some_iff.1 h
  obtain rfl : r = chr ':' :: rest := lit_eq_some hlit
  obtain ⟨w, rfl, hfree⟩ := scheme_within s _ hscheme
  have hw : scheme w = some [] := scheme_before_colon.1 hscheme
  have hhead : (w ++ chr ':' :: rest).head? ≠ some (chr '/') := by
    cases w with
    | nil => cases hw
    | cons c v =>
        intro hc
        obtain rfl : c = chr '/' := Option.some.inj hc
        exact hfree _ List.mem_cons_self (by decide)
  have hslashes : lit "//" (w ++ chr ':' :: rest) = none := lit_of_head_ne rfl hhead
  have hslash : charOf "/" (w ++ chr ':' :: rest) = none := by
    rw [← lit_slash]
    exact lit_of_head_ne rfl hhead
  have hnoscheme : pathNoscheme (w ++ chr ':' :: rest) = some (chr ':' :: rest) := by
    rw [pathNoscheme_eq]
    exact seq_eq_some_iff.2 ⟨_, segmentNzNc_scheme hw, star_of_none slashSegment_consumes rfl⟩
  have hpart : relativePart (w ++ chr ':' :: rest) = some (chr ':' :: rest) := by
    refine alt_eq_left ((alt_eq_right (alt_eq_none_iff.2 ⟨?_, ?_⟩)).trans hnoscheme)
    · simp only [seq, hslashes]
    · simp only [pathAbsolute, seq, hslash]
  exact seq_eq_some_iff.2 ⟨_, seq_eq_some_iff.2 ⟨_, hpart, rfl⟩, rfl⟩

/-- `uri_reference` reads all that `uri` or `relative_ref` reads, and no text is read
to its end by both; `absolute_uri` reads what `uri` reads of the texts without a
number sign. -/
theorem uriReference_iff (s : Bytes) :
    (uriReference s = some [] ↔ uri s = some [] ∨ relativeRef s = some []) ∧
    ¬(uri s = some [] ∧ relativeRef s = some []) ∧
    (absoluteUri s = some [] ↔ uri s = some [] ∧ chr '#' ∉ s) := by
  have hblocked {r : Bytes} (hr : uri s = some r) : relativeRef s ≠ some [] := by
    rw [uri_eq] at hr
    obtain ⟨rest, hs, -⟩ := seq_eq_some_iff.1 hr
    rw [relativeRef_of_scheme hs]
    simp
  refine ⟨⟨alt_eq_some, ?_⟩, fun h => hblocked h.1 h.2, ?_, ?_⟩
  · intro h
    rcases h with h | h
    · exact alt_eq_left h
    · cases hu : uri s with
      | none => exact (alt_eq_right hu).trans h
      | some r => exact absurd h (hblocked hu)
  · intro h
    have hmark : chr '#' ∉ s := fun hmem => absoluteUri_within.all h _ hmem (by simp [ascii])
    exact ⟨seq_eq_some_iff.2 ⟨[], h, rfl⟩, hmark⟩
  · intro h
    exact absoluteUri_of_uri h.1 h.2

end Foxy.Uri
