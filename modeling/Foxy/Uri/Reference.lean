import Foxy.Lib.Regex
import Foxy.Uri.Split

/-!
# Foxy.Uri.Reference

The reference decomposition of a URI and the agreement of `parse_uri` with it.

`appendixB` is the regular expression of RFC 3986, appendix B,

    ^(([^:/?#]+):)?(//([^/?#]*))?([^?#]*)(\?([^#]*))?(#(.*))?

with its groups numbered as there; `reference` reads the five components off
its match. It knows nothing of the grammar: only delimiters count.
-/

namespace Foxy.Uri

open Regex

/-- `[^...]`. -/
def noneOf (set : String) (c : UInt8) : Bool := !(ascii set).contains c

/-- A literal character. -/
def only (d : Char) : Regex UInt8 := .cls (· == chr d)

/-- The expression of RFC 3986, appendix B. -/
def appendixB : Regex UInt8 :=
  .seq (.opt (.group 1 (.seq (.group 2 (.many1 (noneOf ":/?#"))) (only ':'))))
    (.seq (.opt (.group 3 (.seq (.seq (only '/') (only '/')) (.group 4 (.many (noneOf "/?#"))))))
      (.seq (.group 5 (.many (noneOf "?#")))
        (.seq (.opt (.group 6 (.seq (only '?') (.group 7 (.many (noneOf "#"))))))
          (.opt (.group 8 (.seq (only '#') (.group 9 (.many fun _ => true))))))))

/-- Six texts, one for each part of a URI, an absent part empty. -/
structure Texts where
  scheme : Bytes
  host : Bytes
  port : Bytes
  path : Bytes
  query : Bytes
  fragment : Bytes
  deriving Repr, DecidableEq

/-- Nothing at all. -/
def Texts.empty : Texts := ⟨[], [], [], [], [], []⟩

/-- The texts a parse result shows. -/
def UriParts.texts (p : UriParts) : Texts :=
  ⟨p.scheme.chars, p.host.chars, p.port.chars, p.path.chars, p.query.chars, p.fragment.chars⟩

/-- An authority without everything up to and including its `@`. -/
def dropUserinfo (a : Bytes) : Bytes :=
  if a.contains (chr '@') then (a.dropWhile (· != chr '@')).tail else a

/-- Host and port: split at the `:` that follows the host, which for an
IP-literal is looked for behind the `]`. -/
def hostPort (a : Bytes) : Bytes × Bytes :=
  if a.head? = some (chr '[') then
    (a.takeWhile (· != chr ']') ++ [chr ']'], (a.dropWhile (· != chr ']')).tail.tail)
  else (a.takeWhile (· != chr ':'), (a.dropWhile (· != chr ':')).tail)

/-- The reference decomposition of `s`: scheme, path, query and fragment are
groups 2, 5, 7 and 9, host and port are split off group 4. -/
def reference (s : Bytes) : Texts :=
  let g := captures appendixB s
  let hp := hostPort (dropUserinfo (g 4))
  ⟨g 2, hp.1, hp.2, g 5, g 7, g 9⟩

/-! ### The match of a cut text -/

theorem noneOf_of_free {set : String} {w : Bytes} (h : Free set w) :
    ∀ c ∈ w, noneOf set c = true := by
  intro c hc
  simpa [noneOf] using h c hc

/-- Two optional parts led by delimiters start with a delimiter, if at all. -/
theorem head?_led {d d' : Char} {o o' : Option Bytes} {c : UInt8}
    (h : c ∈ (led d o ++ led d' o').head?) : c = chr d ∨ c = chr d' := by
  cases o with
  | some w => exact Or.inl (by simpa [led, eq_comm] using h)
  | none =>
      cases o' with
      | some w => exact Or.inr (by simpa [led, eq_comm] using h)
      | none => simp [led] at h

theorem head?_led_one {d : Char} {o : Option Bytes} {c : UInt8} (h : c ∈ (led d o).head?) :
    c = chr d := by
  cases o with
  | none => simp [led] at h
  | some w => simpa [led, eq_comm] using h

/-- An optional group led by a delimiter, `(d([f]*))?`: it takes the optional
part of a text, and the groups outside of it are untouched. -/
theorem yields_led {d : Char} {n k : Nat} {f : UInt8 → Bool} {o : Option Bytes} {t : Bytes}
    {g : Nat → Bytes} (hnk : n ≠ k) (hf : ∀ w ∈ o, ∀ c ∈ w, f c = true)
    (ht : ∀ c ∈ t.head?, f c = false) (htd : t.head? ≠ some (chr d)) :
    ∃ g', Yields (.opt (.group n (.seq (only d) (.group k (.many f))))) ⟨led d o ++ t, g⟩ ⟨t, g'⟩ ∧
      g' k = o.getD (g k) ∧ ∀ i, i ≠ n → i ≠ k → g' i = g i := by
  cases o with
  | none =>
      refine ⟨g, yields_opt_skip ?_, rfl, fun _ _ _ => rfl⟩
      cases t with
      | nil => simp [runs, only, led]
      | cons c t =>
          have hc : ¬c = chr d := by simpa using htd
          simp [runs, only, led, hc]
  | some w =>
      refine ⟨_, yields_opt (yields_group (w := chr d :: w) (yields_seq
        (yields_cls (c := chr d) (by simp)) (yields_group (yields_many (hf w rfl) ht)))), ?_, ?_⟩
      · simp [hnk.symm]
      · intro i hn hk
        simp [hn, hk]

/-- The scheme group: it takes a scheme and its colon; without one the text
starts with another delimiter and the group takes no part. -/
theorem yields_scheme {o : Option Bytes} {t : Bytes} {g : Nat → Bytes}
    (hne : ∀ w ∈ o, w ≠ []) (hf : ∀ w ∈ o, Free ":/?#" w)
    (ht : o = none → ∀ c ∈ t.head?, noneOf ":/?#" c = false) :
    ∃ g', Yields (.opt (.group 1 (.seq (.group 2 (.many1 (noneOf ":/?#"))) (only ':'))))
        ⟨ended ':' o ++ t, g⟩ ⟨t, g'⟩ ∧
      g' 2 = o.getD (g 2) ∧ ∀ i, i ≠ 1 → i ≠ 2 → g' i = g i := by
  cases o with
  | none =>
      refine ⟨g, yields_opt_skip ?_, rfl, fun _ _ _ => rfl⟩
      cases t with
      | nil => simp [runs, ended]
      | cons c t =>
          have hc := ht rfl c rfl
          simp [runs, ended, hc]
  | some w =>
      have hcolon : ∀ c ∈ (chr ':' :: t).head?, noneOf ":/?#" c = false := by
        intro c hw
        cases hw
        decide
      have hinner : Yields (.seq (.group 2 (.many1 (noneOf ":/?#"))) (only ':'))
          ⟨ended ':' (some w) ++ t, g⟩ ⟨t, Function.update g 2 w⟩ := by
        rw [ended, List.append_assoc]
        exact yields_seq (yields_group (yields_many1 (hne w rfl) (noneOf_of_free (hf w rfl)) hcolon))
          (yields_cls (by simp))
      refine ⟨_, yields_opt (yields_group hinner), ?_, ?_⟩
      · simp
      · intro i h1 h2
        simp [h1, h2]

/-- The authority group. -/
theorem yields_authority {o : Option Authority} {t : Bytes} {g : Nat → Bytes}
    (hf : ∀ a ∈ o, Free "/?#" a.text) (hts : o = none → t.head? ≠ some (chr '/'))
    (ht : o.isSome → ∀ c ∈ t.head?, noneOf "/?#" c = false) :
    ∃ g', Yields (.opt (.group 3 (.seq (.seq (only '/') (only '/'))
          (.group 4 (.many (noneOf "/?#")))))) ⟨Cut.slashed o ++ t, g⟩ ⟨t, g'⟩ ∧
      g' 4 = (o.map Authority.text).getD (g 4) ∧ ∀ i, i ≠ 3 → i ≠ 4 → g' i = g i := by
  cases o with
  | none =>
      refine ⟨g, yields_opt_skip ?_, rfl, fun _ _ _ => rfl⟩
      cases t with
      | nil => simp [runs, only, Cut.slashed]
      | cons c t =>
          have hc : ¬c = chr '/' := by simpa using hts rfl
          simp [runs, only, Cut.slashed, hc]
  | some a =>
      have hinner : Yields (.seq (.seq (only '/') (only '/')) (.group 4 (.many (noneOf "/?#"))))
          ⟨Cut.slashed (some a) ++ t, g⟩ ⟨t, Function.update g 4 a.text⟩ :=
        yields_seq (yields_seq (yields_cls (c := chr '/') (by simp))
            (yields_cls (c := chr '/') (by simp)))
          (yields_group (yields_many (noneOf_of_free (hf a rfl)) (ht rfl)))
      refine ⟨_, yields_opt (yields_group hinner), ?_, ?_⟩
      · simp
      · intro i h3 h4
        simp [h3, h4]

/-! ### The reference split of a cut text -/

theorem Authority.text_free (a : Authority) : Free "/?#" a.text := by
  have huser : Free "/?#" (ended '@' a.user) := by
    cases hu : a.user with
    | none => simp [ended, Free]
    | some w =>
        have hw : Free "/?#" w := (a.user_free w hu).mono (by decide)
        exact hw.append (.singleton (by decide))
  have hhost : Free "/?#" a.host := by
    rcases a.host_shape with hfree | ⟨inner, hbr, hfree⟩
    · exact hfree.mono (by decide)
    · rw [hbr, ← List.singleton_append]
      have hinner : Free "/?#" inner := hfree.mono (by decide)
      exact Free.append (.singleton (by decide))
        (hinner.append (.singleton (by decide)))
  have hport : Free "/?#" (led ':' a.port) := by
    cases hp : a.port with
    | none => simp [led, Free]
    | some w =>
        have hw : Free "/?#" w := (a.port_free w hp).mono (by decide)
        rw [led, ← List.singleton_append]
        exact Free.append (.singleton (by decide)) hw
  exact (huser.append hhost).append hport

/-- What follows a cut's authority begins with one of the delimiters that end
an authority. -/
theorem Cut.head?_rest {c : Cut} {b : UInt8}
    (hb : b ∈ (c.path ++ (led '?' c.query ++ led '#' c.fragment)).head?) :
    (b = chr '/' ∧ c.authority.isSome) ∨ b = chr '?' ∨ b = chr '#' := by
  rcases c.path_start with hnil | ⟨hauth, hslash⟩
  · rw [hnil, List.nil_append] at hb
    exact Or.inr (head?_led hb)
  · rw [List.head?_append, hslash, Option.some_or] at hb
    exact Or.inl ⟨by simpa [eq_comm] using hb, hauth⟩

/-- The groups of the expression on a cut text are the parts of the cut. -/
theorem Cut.captures_text (c : Cut) :
    captures appendixB c.text 2 = c.scheme.getD [] ∧
      captures appendixB c.text 4 = (c.authority.map Authority.text).getD [] ∧
      captures appendixB c.text 5 = c.path ∧
      captures appendixB c.text 7 = c.query.getD [] ∧
      captures appendixB c.text 9 = c.fragment.getD [] := by
  -- one group after the other, each on what the one before left
  obtain ⟨g₁, hy₁, h2, hk₁⟩ := yields_scheme (g := fun _ => [])
    (t := Cut.slashed c.authority ++ (c.path ++ (led '?' c.query ++ led '#' c.fragment)))
    c.scheme_ne c.scheme_free (by
      intro _ b hb
      cases ha : c.authority with
      | none =>
          rw [ha] at hb
          rcases head?_rest hb with ⟨-, hsome⟩ | rfl | rfl
          · simp [ha] at hsome
          · decide
          · decide
      | some a =>
          obtain rfl : b = chr '/' := by simpa [ha, Cut.slashed, ascii, eq_comm] using hb
          decide)
  obtain ⟨g₂, hy₂, h4, hk₂⟩ := yields_authority (g := g₁) (o := c.authority)
    (t := c.path ++ (led '?' c.query ++ led '#' c.fragment)) (fun a _ => a.text_free)
    (by
      intro hnone hslash
      rcases head?_rest hslash with ⟨-, hsome⟩ | hb | hb
      · simp [hnone] at hsome
      · exact absurd hb (by decide)
      · exact absurd hb (by decide))
    (by
      intro _ b hb
      rcases head?_rest hb with ⟨rfl, -⟩ | rfl | rfl <;> decide)
  have hy₃ := yields_group (n := 5) (yields_many (g := g₂) (f := noneOf "?#")
    (t := led '?' c.query ++ led '#' c.fragment) (noneOf_of_free c.path_free) (by
      intro b hb
      rcases head?_led hb with rfl | rfl <;> decide))
  obtain ⟨g₄, hy₄, h7, hk₄⟩ := yields_led (d := '?') (n := 6) (k := 7) (f := noneOf "#")
    (g := Function.update g₂ 5 c.path) (o := c.query) (t := led '#' c.fragment) (by omega)
    (fun w hw => noneOf_of_free (c.query_free w hw)) (by
      intro b hb
      rw [head?_led_one hb]
      decide)
    (fun hb => absurd (head?_led_one hb) (by decide))
  obtain ⟨g₅, hy₅, h9, hk₅⟩ := yields_led (d := '#') (n := 8) (k := 9) (f := fun _ => true)
    (g := g₄) (o := c.fragment) (t := []) (by omega) (fun _ _ _ _ => rfl) (by simp) (by simp)
  rw [List.append_nil] at hy₅
  have hall : captures appendixB c.text = g₅ :=
    captures_of_yields (yields_seq hy₁ (yields_seq hy₂ (yields_seq hy₃ (yields_seq hy₄ hy₅))))
  rw [hall]
  refine ⟨?_, ?_, ?_, ?_, ?_⟩
  · rw [hk₅ 2 (by omega) (by omega), hk₄ 2 (by omega) (by omega),
      Function.update_of_ne (by omega), hk₂ 2 (by omega) (by omega), h2]
  · rw [hk₅ 4 (by omega) (by omega), hk₄ 4 (by omega) (by omega),
      Function.update_of_ne (by omega), h4, hk₁ 4 (by omega) (by omega)]
  · rw [hk₅ 5 (by omega) (by omega), hk₄ 5 (by omega) (by omega), Function.update_self]
  · rw [hk₅ 7 (by omega) (by omega), h7, Function.update_of_ne (by omega),
      hk₂ 7 (by omega) (by omega), hk₁ 7 (by omega) (by omega)]
  · rw [h9, hk₄ 9 (by omega) (by omega), Function.update_of_ne (by omega),
      hk₂ 9 (by omega) (by omega), hk₁ 9 (by omega) (by omega)]

theorem dropUserinfo_text (a : Authority) : dropUserinfo a.text = a.host ++ led ':' a.port := by
  have hclean : chr '@' ∉ a.host ++ led ':' a.port := by
    intro hmem
    rcases List.mem_append.1 hmem with hmem | hmem
    · rcases a.host_shape with hfree | ⟨inner, hbr, hfree⟩
      · exact hfree _ hmem (by decide)
      · rw [hbr] at hmem
        rcases List.mem_cons.1 hmem with hmem | hmem
        · exact absurd hmem (by decide)
        · rcases List.mem_append.1 hmem with hmem | hmem
          · exact hfree _ hmem (by decide)
          · exact absurd hmem (by decide)
    · cases hp : a.port with
      | none => simp [hp, led] at hmem
      | some w =>
          rw [hp, led] at hmem
          rcases List.mem_cons.1 hmem with hmem | hmem
          · exact absurd hmem (by decide)
          · exact a.port_free w hp _ hmem (by decide)
  cases hu : a.user with
  | none =>
      have htext : a.text = a.host ++ led ':' a.port := by simp [Authority.text, hu, ended]
      rw [htext, dropUserinfo, if_neg (by simpa using hclean)]
  | some w =>
      have htext : a.text = w ++ chr '@' :: (a.host ++ led ':' a.port) := by
        simp [Authority.text, hu, ended]
      have hw : ∀ c ∈ w, (c != chr '@') = true := by
        intro c hc
        have := a.user_free w hu c hc
        simp only [bne_iff_ne]
        intro heq
        subst heq
        exact this (by decide)
      rw [htext, dropUserinfo, if_pos (by simp), List.dropWhile_append_of_pos hw]
      simp

/-- An optional port behind its colon gives the port back without the colon. -/
theorem tail_led (d : Char) (o : Option Bytes) : (led d o).tail = o.getD [] := by
  cases o <;> rfl

theorem hostPort_text (a : Authority) :
    hostPort (a.host ++ led ':' a.port) = (a.host, a.port.getD []) := by
  rcases a.host_shape with hfree | ⟨inner, hbr, hfree⟩
  · have hall : ∀ c ∈ a.host, (c != chr ':') = true := by
      intro c hc
      have := hfree c hc
      simp only [bne_iff_ne]
      intro heq
      subst heq
      exact this (by decide)
    have hhead : (a.host ++ led ':' a.port).head? ≠ some (chr '[') := by
      intro hopen
      cases hh : a.host with
      | nil =>
          rw [hh, List.nil_append] at hopen
          cases hp : a.port with
          | none => simp [hp, led] at hopen
          | some w =>
              rw [hp, led, List.head?_cons, Option.some.injEq] at hopen
              exact absurd hopen (by decide)
      | cons c w =>
          have hc : c = chr '[' := by simpa [hh] using hopen
          exact hfree c (by simp [hh]) (by rw [hc]; decide)
    have hport : (led ':' a.port).takeWhile (· != chr ':') = [] ∧
        (led ':' a.port).dropWhile (· != chr ':') = led ':' a.port := by
      cases a.port <;> simp [led]
    rw [hostPort, if_neg hhead, List.takeWhile_append_of_pos hall,
      List.dropWhile_append_of_pos hall, hport.1, hport.2, List.append_nil, tail_led]
  · have hall : ∀ c ∈ chr '[' :: inner, (c != chr ']') = true := by
      intro c hc
      rcases List.mem_cons.1 hc with rfl | hc
      · decide
      · have := hfree c hc
        simp only [bne_iff_ne]
        intro heq
        subst heq
        exact this (by decide)
    have htext : a.host ++ led ':' a.port = (chr '[' :: inner) ++ (chr ']' :: led ':' a.port) := by
      simp [hbr]
    rw [hostPort, if_pos (by simp [hbr]), htext, List.takeWhile_append_of_pos hall,
      List.dropWhile_append_of_pos hall]
    simp [hbr, tail_led]

/-- The reference split of a cut text returns the parts of the cut. -/
theorem Cut.reference_text {c : Cut} {p : UriParts} (h : c.Fills p) : reference c.text = p.texts := by
  obtain ⟨h2, h4, h5, h7, h9⟩ := c.captures_text
  have hauth : hostPort (dropUserinfo (captures appendixB c.text 4)) =
      (p.host.chars, p.port.chars) := by
    rw [h4, h.host, h.port]
    cases c.authority with
    | none => rfl
    | some a =>
        show hostPort (dropUserinfo a.text) = (a.host, a.port.getD [])
        rw [dropUserinfo_text, hostPort_text]
  simp only [reference, UriParts.texts, hauth, h2, h5, h7, h9, h.scheme, h.path, h.query, h.fragment]

/-! ### Agreement -/

/-- Where a result comes from: `parse_complete`, with a scheme, or
`parse_authority`, without one, or nothing was accepted. -/
theorem parseUri_cases (s : Bytes) :
    (∃ c : Cut, c.scheme.isSome ∧ c.text = s ∧ c.Fills (parseUri s)) ∨
      (∃ c : Cut, c.scheme = none ∧ c.text = ascii "//" ++ s ∧ c.Fills (parseUri s)) ∨
      parseUri s = .empty := by
  unfold parseUri
  cases hc : parseComplete s .empty with
  | mk ok p =>
    cases ok with
    | true => exact Or.inl (parseComplete_eq_true hc)
    | false =>
        cases ha : parseAuthority s .empty with
        | mk ok' p' =>
          cases ok' with
          | true => exact Or.inr (Or.inl (parseAuthority_eq_true ha))
          | false => exact Or.inr (Or.inr rfl)

/-- The host of a cut has the shape of a host. -/
theorem Cut.Fills.host_shape {c : Cut} {p : UriParts} (h : c.Fills p) : HostShape p.host.chars := by
  rw [h.host]
  cases c.authority with
  | none => exact Or.inl (by simp [Free])
  | some a => exact a.host_shape

theorem parseUri_host_shape (s : Bytes) : HostShape (parseUri s).host.chars := by
  rcases parseUri_cases s with ⟨c, -, -, hfills⟩ | ⟨c, -, -, hfills⟩ | hempty
  · exact hfills.host_shape
  · exact hfills.host_shape
  · rw [hempty]
    exact Or.inl (by simp [Free, BasicUriParts.empty, BasicView.null])

/-- `parse_uri` splits every text as the expression of RFC 3986 does: a result
with a scheme is the split of the text itself, one without a scheme the split
of the text behind two slashes, and otherwise all six components are empty. No
host holds a delimiter other than the colons between its brackets. -/
theorem parseUri_agrees (s : Bytes) :
    ((parseUri s).scheme.chars ≠ [] → (parseUri s).texts = reference s) ∧
      ((parseUri s).scheme.chars = [] → (parseUri s).texts ≠ .empty →
        (parseUri s).texts = reference (ascii "//" ++ s)) ∧
      ((parseComplete s .empty).1 = false → (parseAuthority s .empty).1 = false →
        (parseUri s).texts = .empty) ∧
      (∀ c ∈ (parseUri s).host.chars, c ∉ ascii "/?#@") ∧
      (chr ':' ∈ (parseUri s).host.chars → ∃ inner,
        (parseUri s).host.chars = chr '[' :: (inner ++ [chr ']']) ∧
          chr '[' ∉ inner ∧ chr ']' ∉ inner) := by
  refine ⟨?_, ?_, ?_, ?_, ?_⟩
  · intro hscheme
    rcases parseUri_cases s with ⟨c, -, htext, hfills⟩ | ⟨c, hnone, -, hfills⟩ | hempty
    · exact (Cut.reference_text hfills).symm.trans (by rw [htext])
    · exact absurd (by rw [hfills.scheme, hnone]; rfl) hscheme
    · exact absurd (by rw [hempty]; rfl) hscheme
  · intro hscheme hne
    rcases parseUri_cases s with ⟨c, hsome, -, hfills⟩ | ⟨c, -, htext, hfills⟩ | hempty
    · -- a scheme that was read is not empty
      obtain ⟨w, hw⟩ := Option.isSome_iff_exists.1 hsome
      have hnil : w = [] := by rw [← hscheme, hfills.scheme, hw]; rfl
      exact absurd hnil (c.scheme_ne w hw)
    · exact (Cut.reference_text hfills).symm.trans (by rw [htext])
    · exact absurd (by rw [hempty]; rfl) hne
  · intro hcomplete hauthority
    have hempty : parseUri s = .empty := by
      unfold parseUri
      cases hc : parseComplete s .empty with
      | mk ok p =>
        obtain rfl : ok = false := by simpa [hc] using hcomplete
        cases ha : parseAuthority s .empty with
        | mk ok' p' =>
          obtain rfl : ok' = false := by simpa [ha] using hauthority
          rfl
    rw [hempty]
    rfl
  · intro c hc
    rcases parseUri_host_shape s with hfree | ⟨inner, hbr, hfree⟩
    · exact hfree.mono (by decide) c hc
    · rw [hbr, ← List.singleton_append] at hc
      have hall : Free "/?#@" ([chr '['] ++ (inner ++ [chr ']'])) :=
        (Free.singleton (by decide)).append
          ((hfree.mono (by decide)).append (Free.singleton (by decide)))
      exact hall c hc
  · intro hcolon
    rcases parseUri_host_shape s with hfree | ⟨inner, hbr, hfree⟩
    · exact absurd (by decide) (hfree _ hcolon)
    · exact ⟨inner, hbr, fun h => hfree _ h (by decide), fun h => hfree _ h (by decide)⟩

end Foxy.Uri
