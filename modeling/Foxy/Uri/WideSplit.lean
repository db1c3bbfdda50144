import Foxy.Uri.Grammar
import Foxy.Uri.WideParts

/-!
# Foxy.Uri.WideSplit

Where the wide parser keeps the ASCII parts of a URI ASCII, read off the text.

The comments above the rules have `DIGIT`, `HEXDIG` and `ALPHA` for the characters of a
port, an address, a triplet and a scheme, and the rules have the classes of Unicode. So the
result holds what the text has at those places. The places are found by the delimiters
alone (`places`): no rule of the grammar has to be followed to see whether a text keeps
them ASCII, except for the question by which of the two forms it is read and whether its
host is an IPv4 address.
-/

namespace Foxy.Uri.Unicode

open Peg X3

/-! ### The parts that are ASCII by their comments -/

/-- Scheme, port, triplets and addresses hold what the rules over `char` are meant to
read. -/
structure KeepsAscii (cls : UnicodeClasses) (s : List UInt32) (p : WideParts) : Prop where
  scheme : ∀ c ∈ p.scheme.chars, isAlpha c.toNat = true ∨ isDigit c.toNat = true ∨
    c = '+'.val ∨ c = '-'.val ∨ c = '.'.val
  port : ∀ c ∈ p.port.chars, isDigit c.toNat = true
  triplets : ∀ v ∈ [p.scheme, p.host, p.port, p.path, p.query, p.fragment],
    Triplets (fun c => isXdigit c.toNat = true) v.chars
  quad : Matched (ipV4Address cls) s p.host → ∀ c ∈ p.host.chars, c.toNat < 128
  literal : Matched (seq (seq (lit "[") (ipV6Address cls)) (lit "]")) s p.host →
    ∀ c ∈ p.host.chars, c.toNat < 128

/-! ### A text cut at its delimiters -/

/-- The scheme, the host and the port of a text, and what follows the authority. -/
structure Places where
  scheme : List UInt32
  host : List UInt32
  port : List UInt32
  tail : List UInt32
  deriving DecidableEq

/-- None of the delimiters `set`. -/
def Free (set : String) (c : UInt32) : Prop := c ∉ text set

instance (set : String) : DecidablePred (Free set) :=
  fun c => inferInstanceAs (Decidable (c ∉ text set))

/-- An authority without everything up to and including its `@`. -/
def dropUserinfo (a : List UInt32) : List UInt32 :=
  if '@'.val ∈ a then (a.dropWhile (· ≠ '@'.val)).tail else a

/-- Host and port: split at the `:` behind the host, a literal at its `]`. -/
def hostPort (a : List UInt32) : List UInt32 × List UInt32 :=
  if a.head? = some '['.val then
    (a.takeWhile (· ≠ ']'.val) ++ [']'.val], (a.dropWhile (· ≠ ']'.val)).tail.tail)
  else (a.takeWhile (· ≠ ':'.val), (a.dropWhile (· ≠ ':'.val)).tail)

/-- The places of an authority and what follows it. -/
def authorityPlaces (t : List UInt32) : Places :=
  let hp := hostPort (dropUserinfo (t.takeWhile (Free "/?#")))
  ⟨[], hp.1, hp.2, t.dropWhile (Free "/?#")⟩

/-- The places of a text with a scheme: up to the first colon, and behind it an authority
if there are two slashes. -/
def schemePlaces (s : List UInt32) : Places :=
  let scheme := s.takeWhile (· ≠ ':'.val)
  let rest := (s.dropWhile (· ≠ ':'.val)).tail
  if text "//" <+: rest then { authorityPlaces (rest.drop 2) with scheme := scheme }
  else ⟨scheme, [], [], rest⟩

variable (cls : UnicodeClasses)

/-- `[ "?" query ] [ "#" fragment ]`. -/
def queryFragment : Peg UInt32 :=
  seq (opt (seq (lit "?") (query cls))) (opt (seq (lit "#") (fragment cls)))

/-- `"//" authority path-abempty / path-empty`. -/
def knownHierPart : Peg UInt32 :=
  alt (seq (seq (lit "//") (authority cls)) (pathAbempty cls)) (pathEmpty cls)

/-- The text is a scheme and a colon, and behind them an authority with a path or nothing,
a query and a fragment. -/
def IsComplete (s : List UInt32) : Prop :=
  seq (seq (scheme cls) (lit ":")) (seq (knownHierPart cls) (queryFragment cls)) s = some []

/-- The text is an authority with a path, a query and a fragment. -/
def IsAuthorityForm (s : List UInt32) : Prop :=
  seq (seq (authority cls) (pathAbempty cls)) (queryFragment cls) s = some []

instance (s : List UInt32) : Decidable (IsComplete cls s) :=
  inferInstanceAs (Decidable (_ = some []))

instance (s : List UInt32) : Decidable (IsAuthorityForm cls s) :=
  inferInstanceAs (Decidable (_ = some []))

/-- The places of a text by the form it has. A text without a form has none. -/
def places (s : List UInt32) : Places :=
  if IsComplete cls s then schemePlaces s
  else if IsAuthorityForm cls s then authorityPlaces s
  else ⟨[], [], [], []⟩

/-- Nothing beyond ASCII in scheme, port and address and behind a percent sign, and no
comma in the scheme. -/
structure AsciiPlaces (p : Places) : Prop where
  scheme : ∀ c ∈ p.scheme, c.toNat < 128 ∧ c ≠ ','.val
  port : ∀ c ∈ p.port, c.toNat < 128
  triplets : ∀ w ∈ [p.host, p.tail], Triplets (fun c => c.toNat < 128) w
  quad : ipV4Address cls p.host = some [] → ∀ c ∈ p.host, c.toNat < 128
  literal : p.host.head? = some '['.val → p.host[1]? ≠ some 'v'.val → ∀ c ∈ p.host, c.toNat < 128

variable {cls}

/-! ### Alphabets of the rules -/

/-- No general delimiter. -/
abbrev Clear : UInt32 → Prop := Free ":/?#[]@"

/-- No general delimiter but a colon. -/
abbrev Inside : UInt32 → Prop := Free "/?#[]@"

theorem Free.mono {set set' : String} {c : UInt32} (h : Free set c)
    (hs : text set' ⊆ text set) : Free set' c := fun hmem => h (hs hmem)

theorem Clear.inside {c : UInt32} (h : Clear c) : Inside c := h.mono (by decide)

theorem clear_of_widened {ascii : Nat → Bool} {table : UInt32 → Bool} {c : UInt32}
    (hascii : ((text ":/?#[]@").all fun d => d.toNat < 128 && !ascii d.toNat) = true)
    (hc : Widened ascii table c) : Clear c := by
  intro hmem
  have hd := List.all_eq_true.1 hascii c hmem
  rw [Bool.and_eq_true, decide_eq_true_eq, Bool.not_eq_true'] at hd
  rw [Widened, if_pos hd.1, hd.2] at hc
  cases hc

theorem clear_of_set {set : String} {c : UInt32}
    (hset : ((text ":/?#[]@").all fun d => !charSet (codes set) d.toNat) = true)
    (hc : charSet (codes set) c.toNat = true) : Clear c := by
  intro hmem
  have hd := List.all_eq_true.1 hset c hmem
  rw [hc] at hd
  cases hd

theorem DigitChar.clear {c : UInt32} (h : DigitChar cls c) : Clear c :=
  clear_of_widened (by decide) h

theorem QuadChar.clear {c : UInt32} (h : QuadChar cls c) : Clear c := by
  obtain h | rfl := h
  · exact h.clear
  · exact by decide

/-- A literal consumes characters of `q` if it is written with them. -/
theorem lit_within {l : String} {q : UInt32 → Prop} (hl : ∀ c ∈ text l, q c) :
    Within (lit l) q := lit_takes hl

section
variable (hcls : CoincideOnAscii cls)
include hcls

theorem nameTerminals_clear {q : UInt32 → Prop} (hq : ∀ c, Clear c → q c) :
    NameTerminals cls fun w => ∀ c ∈ w, q c where
  toNumerals := numerals_all hcls fun c hc => hq c hc.clear
  alpha := within_satisfy fun c hc => hq c (clear_of_widened (by decide) (widened_of hcls.alpha hc))
  pctEncoded := by
    have hdigit : Within cls.xdigit q :=
      within_satisfy fun c hc => hq c (clear_of_widened (by decide) (isXdigit_char hcls hc))
    have hpct : Within (lit "%") q := by
      refine lit_within fun c hc => hq c ?_
      obtain rfl := List.mem_singleton.1 hc
      decide
    exact takes_seq (closed_all q) (takes_seq (closed_all q) hpct hdigit) hdigit
  plain := by
    have hfree : ∀ set ∈ ["-._~", "!$&'()*+,;="],
        ((text ":/?#[]@").all fun d => !charSet (codes set) d.toNat) = true := by decide
    intro set hset
    exact within_satisfy fun c hc => hq c (clear_of_set (hfree set hset) hc)

theorem name_clear : Within (alt (ipV4Address cls) (regName cls)) Clear :=
  name_takes (closed_all _) (nameTerminals_clear hcls fun _ hc => hc)

theorem hexNumerals_inside : HexNumerals cls fun w => ∀ c ∈ w, Inside c where
  toNumerals := numerals_all hcls fun c hc => hc.clear.mono (by decide)
  xdigit := within_satisfy fun c hc =>
    Clear.inside (clear_of_widened (by decide) (isXdigit_char hcls hc))
  colon := by
    have hcolon : ∀ l ∈ [":", "::"], (text l).all (fun c => decide (Inside c)) = true := by decide
    intro l hl
    exact lit_within fun c hc => of_decide_eq_true (List.all_eq_true.1 (hcolon l hl) c hc)

theorem bracketed_inside : Within (alt (ipV6Address cls) (ipVfuture cls)) Inside := by
  have hv : Within (lit "v") Inside := by
    refine lit_within fun c hc => ?_
    obtain rfl := List.mem_singleton.1 hc
    decide
  exact bracketed_takes (closed_all _) (hexNumerals_inside hcls)
    (nameTerminals_clear hcls fun _ hc => Clear.inside hc) hv

theorem userinfo_inside : Within (userinfo cls) Inside :=
  userinfo_takes (closed_all _) (nameTerminals_clear hcls fun _ hc => Clear.inside hc)
    ((hexNumerals_inside hcls).colon ":" (by simp))

theorem scheme_clear : Within (scheme cls) Clear := by
  refine (scheme_within hcls).mono ?_
  intro c hc
  obtain (h | h | h | h | h) | h := hc
  · exact clear_of_widened (by decide) h
  · exact h.clear
  all_goals
    rw [h]
    decide

end

/-! ### The places of a text that has been taken apart -/

theorem takeWhile_stop {f : UInt32 → Bool} {w t : List UInt32} (hw : ∀ c ∈ w, f c = true)
    (ht : ∀ c ∈ t.head?, f c = false) :
    (w ++ t).takeWhile f = w ∧ (w ++ t).dropWhile f = t := by
  have hstop : t.takeWhile f = [] ∧ t.dropWhile f = t := by
    cases t with
    | nil => exact ⟨rfl, rfl⟩
    | cons c t =>
        have hc : ¬f c = true := Bool.eq_false_iff.1 (ht c rfl)
        exact ⟨List.takeWhile_cons_of_neg hc, List.dropWhile_cons_of_neg hc⟩
  rw [List.takeWhile_append_of_pos hw, List.dropWhile_append_of_pos hw, hstop.1, hstop.2,
    List.append_nil]
  exact ⟨rfl, rfl⟩

/-- Up to the first `d`. -/
theorem takeWhile_ne {d : UInt32} {w t : List UInt32} (hw : d ∉ w) :
    (w ++ d :: t).takeWhile (· ≠ d) = w ∧ (w ++ d :: t).dropWhile (· ≠ d) = d :: t := by
  refine takeWhile_stop ?_ ?_
  · intro c hc
    refine decide_eq_true ?_
    intro heq
    exact hw (heq ▸ hc)
  · intro c hc
    obtain rfl : d = c := Option.some.inj hc
    simp

/-- A host holds no delimiter, or it is bracketed and only the brackets and the colons
between them are. -/
def HostShape (h : List UInt32) : Prop :=
  (∀ c ∈ h, Clear c) ∨ ∃ inner, h = '['.val :: (inner ++ [']'.val]) ∧ ∀ c ∈ inner, Inside c

/-- An optional part behind its delimiter: all of it, and the part. -/
def Led (d : Char) (x w : List UInt32) : Prop := x = [] ∧ w = [] ∨ x = d.val :: w

/-- The text of an authority with the given host and port, and what follows it. -/
def CutAs (t host port tail : List UInt32) : Prop :=
  ∃ x y, t = x ++ (host ++ (y ++ tail)) ∧
    (x = [] ∨ ∃ u, x = u ++ ['@'.val] ∧ ∀ c ∈ u, Inside c) ∧ HostShape host ∧
    (Led ':' y port ∧ ∀ c ∈ port, Clear c) ∧ ∀ c ∈ tail.head?, c ∈ text "/?#"

theorem HostShape.free {h : List UInt32} (hh : HostShape h) : ∀ c ∈ h, Free "/?#@" c := by
  intro c hc
  obtain hclear | ⟨inner, rfl, hfree⟩ := hh
  · exact (hclear c hc).mono (by decide)
  · obtain rfl | hc | rfl : c = '['.val ∨ c ∈ inner ∨ c = ']'.val := by simpa using hc
    · decide
    · exact (hfree c hc).mono (by decide)
    · decide

theorem Led.tail {d : Char} {x w : List UInt32} (h : Led d x w) : x.tail = w := by
  obtain ⟨rfl, rfl⟩ | rfl := h <;> rfl

theorem Led.head {d : Char} {x w : List UInt32} (h : Led d x w) : ∀ c ∈ x.head?, c = d.val := by
  intro c hc
  obtain ⟨rfl, -⟩ | rfl := h
  · cases hc
  · exact (Option.some.inj hc).symm

theorem HostShape.hostPort_eq {h y p : List UInt32} (hh : HostShape h) (hy : Led ':' y p) :
    hostPort (h ++ y) = (h, p) := by
  obtain hclear | ⟨inner, rfl, hfree⟩ := hh
  · have hhost : ∀ c ∈ h, decide (c ≠ ':'.val) = true := by
      intro c hc
      refine decide_eq_true ?_
      intro heq
      exact hclear c hc (heq ▸ by decide)
    have hport : ∀ c ∈ y.head?, decide (c ≠ ':'.val) = false := by
      intro c hc
      rw [hy.head c hc]
      decide
    have hopen : (h ++ y).head? ≠ some '['.val := by
      cases h with
      | nil => exact fun hhead => absurd (hy.head _ hhead) (by decide)
      | cons c w =>
          intro hhead
          exact hclear c List.mem_cons_self (Option.some.inj hhead ▸ by decide)
    obtain ⟨htake, hdrop⟩ := takeWhile_stop hhost hport
    rw [hostPort, if_neg hopen, htake, hdrop, hy.tail]
  · have hclose : ']'.val ∉ '['.val :: inner := by
      intro hmem
      obtain h | h := List.mem_cons.1 hmem
      · exact absurd h (by decide)
      · exact hfree _ h (by decide)
    obtain ⟨htake, hdrop⟩ := takeWhile_ne (t := y) hclose
    have htext : '['.val :: (inner ++ [']'.val]) ++ y = '['.val :: inner ++ ']'.val :: y := by simp
    have hopen : ('['.val :: inner ++ ']'.val :: y).head? = some '['.val := rfl
    rw [htext, hostPort, if_pos hopen, htake, hdrop, List.tail_cons, hy.tail]
    rfl

theorem CutAs.places_eq {t host port tail : List UInt32} (h : CutAs t host port tail) :
    authorityPlaces t = ⟨[], host, port, tail⟩ := by
  obtain ⟨x, y, rfl, hx, hshape, ⟨hy, hport⟩, htail⟩ := h
  have hafter : ∀ c ∈ host ++ y, Free "/?#@" c := by
    intro c hc
    obtain hc | hc := List.mem_append.1 hc
    · exact hshape.free c hc
    · obtain ⟨rfl, -⟩ | rfl := hy
      · cases hc
      · obtain rfl | hc := List.mem_cons.1 hc
        · decide
        · exact (hport c hc).mono (by decide)
  have huser : ∀ c ∈ x, Free "/?#" c := by
    intro c hc
    obtain rfl | ⟨u, rfl, hu⟩ := hx
    · cases hc
    · obtain hc | hc := List.mem_append.1 hc
      · exact (hu c hc).mono (by decide)
      · rw [List.mem_singleton.1 hc]
        decide
  have hall : ∀ c ∈ x ++ (host ++ y), decide (Free "/?#" c) = true := by
    intro c hc
    obtain hc | hc := List.mem_append.1 hc
    · exact decide_eq_true (huser c hc)
    · exact decide_eq_true ((hafter c hc).mono (by decide))
  have hstop : ∀ c ∈ tail.head?, decide (Free "/?#" c) = false :=
    fun c hc => decide_eq_false fun hfree => hfree (htail c hc)
  have hdrop : dropUserinfo (x ++ (host ++ y)) = host ++ y := by
    have hat : '@'.val ∉ host ++ y := fun hmem => hafter _ hmem (by decide)
    obtain rfl | ⟨u, rfl, hu⟩ := hx
    · exact if_neg hat
    · have hcut := takeWhile_ne (t := host ++ y) fun hmem => hu '@'.val hmem (by decide)
      have htext : u ++ ['@'.val] ++ (host ++ y) = u ++ '@'.val :: (host ++ y) := by simp
      rw [htext, dropUserinfo, if_pos (by simp), hcut.2, List.tail_cons]
  have htext : x ++ (host ++ (y ++ tail)) = x ++ (host ++ y) ++ tail := by simp
  obtain ⟨htake, hrest⟩ := takeWhile_stop hall hstop
  rw [htext, authorityPlaces, htake, hrest, hdrop, hshape.hostPort_eq hy]

/-- A scheme before an authority. -/
theorem CutAs.schemePlaces_eq {w t host port tail : List UInt32} (h : CutAs t host port tail)
    (hw : ∀ c ∈ w, Clear c) :
    schemePlaces (w ++ ':'.val :: (text "//" ++ t)) = ⟨w, host, port, tail⟩ := by
  obtain ⟨htake, hdrop⟩ := takeWhile_ne (t := text "//" ++ t) fun hmem => hw ':'.val hmem (by decide)
  have hplaces : authorityPlaces ((text "//" ++ t).drop 2) = ⟨[], host, port, tail⟩ := h.places_eq
  rw [schemePlaces, htake, hdrop, List.tail_cons, if_pos (List.prefix_append _ _), hplaces]

/-- A scheme before a query, a fragment or nothing. -/
theorem schemePlaces_bare {w r : List UInt32} (hw : ∀ c ∈ w, Clear c)
    (hr : ∀ c ∈ r.head?, c ∈ text "?#") : schemePlaces (w ++ ':'.val :: r) = ⟨w, [], [], r⟩ := by
  have hslashes : ¬text "//" <+: r := by
    intro h
    obtain ⟨t, rfl⟩ := h
    exact absurd (hr '/'.val rfl) (by decide)
  obtain ⟨htake, hdrop⟩ := takeWhile_ne (t := r) fun hmem => hw ':'.val hmem (by decide)
  rw [schemePlaces, htake, hdrop, List.tail_cons, if_neg hslashes]

/-! ### What the driver takes apart -/

section
variable {l : String} {d : Char} {p : Peg UInt32} {q : UInt32 → Prop} {s r : List UInt32}
  {a v : BasicView UInt32}

theorem raw_eq_some (hp : Within p q) (h : raw p s a = (some r, v)) :
    p s = some r ∧ v.left = some s.length ∧ s = v.chars ++ r ∧ ∀ c ∈ v.chars, q c := by
  simp only [raw] at h
  cases hps : p s with
  | none =>
      rw [hps] at h
      cases h
  | some t =>
      rw [hps] at h
      obtain ⟨rfl, rfl⟩ := Prod.mk.inj h |>.imp Option.some.inj id
      obtain ⟨w, rfl, hw⟩ := hp s t hps
      simpa using hw

theorem thenCapture_seq (p p' : Peg UInt32) (c : BasicCapture UInt32) :
    thenCapture (seq p p') c = thenCapture p (thenCapture p' c) := by
  funext s a
  simp only [thenCapture, seq]
  cases p s <;> rfl

theorem thenCapture_of_some {c : BasicCapture UInt32} (h : p s = some r) :
    thenCapture p c s a = c r a := by simp only [thenCapture, h]

theorem lit_eq_some (h : lit l s = some r) : s = text l ++ r := by
  obtain ⟨w, rfl, rfl⟩ := lit_takes (L := (· = text l)) rfl s r h
  rfl

/-- The optional part led by a delimiter: absent, or captured whole. -/
theorem optLed_eq_some (hl : text l = [d.val]) (hp : Within p q) (htotal : Total p)
    (h : optCapture (thenCapture (lit l) (raw p)) s .null = (some r, v)) :
    ∃ x, s = x ++ r ∧ Led d x v.chars ∧ ∀ c ∈ v.chars, q c := by
  simp only [optCapture, thenCapture] at h
  cases hlit : lit l s with
  | none =>
      rw [hlit] at h
      cases h
      exact ⟨[], rfl, Or.inl ⟨rfl, rfl⟩, fun _ hc => absurd hc List.not_mem_nil⟩
  | some t =>
      obtain ⟨t', ht'⟩ := htotal t
      obtain ⟨v', hraw⟩ := (captures_raw p).eq ht' .null
      simp only [hlit, hraw] at h
      cases h
      obtain ⟨-, -, rfl, hq⟩ := raw_eq_some hp hraw
      refine ⟨d.val :: v.chars, ?_, Or.inr rfl, hq⟩
      rw [lit_eq_some hlit, hl]
      rfl

end

/-- Path, query and fragment make up the rest of the text. -/
def Rest (t : List UInt32) (p : WideParts) : Prop :=
  ∃ x y, t = p.path.chars ++ (x ++ y) ∧ Led '?' x p.query.chars ∧ Led '#' y p.fragment.chars

theorem led_head {x y w w' : List UInt32} (hx : Led '?' x w) (hy : Led '#' y w') :
    ∀ c ∈ (x ++ y).head?, c ∈ text "?#" := by
  intro c hc
  obtain ⟨rfl, -⟩ | rfl := hx
  · rw [hy.head c hc]
    decide
  · obtain rfl : '?'.val = c := Option.some.inj hc
    decide

theorem query_within : Within (query cls) fun _ => True :=
  query_any.mono fun _ _ _ _ => trivial

section
variable {iter s r : List UInt32} {parts p : WideParts}

theorem parseQueryFragment_eq_true (h : parseQueryFragment cls iter parts = (true, p))
    (hq : parts.query = .null) (hf : parts.fragment = .null) :
    ∃ x y, iter = x ++ y ∧ Led '?' x p.query.chars ∧ Led '#' y p.fragment.chars ∧
      p.scheme = parts.scheme ∧ p.host = parts.host ∧ p.port = parts.port ∧
      p.path = parts.path := by
  simp only [parseQueryFragment, hq, hf] at h
  cases hcq : optCapture (thenCapture (lit "?") (raw (query cls))) iter .null with
  | mk o vq =>
    cases o with
    | none => simp [hcq] at h
    | some r =>
        simp only [hcq] at h
        cases hcf : optCapture (thenCapture (lit "#") (raw (fragment cls))) r .null with
        | mk o' vf =>
          cases o' with
          | none => simp [hcf] at h
          | some r' =>
              simp only [hcf, Prod.mk.injEq, List.isEmpty_iff] at h
              obtain ⟨rfl, rfl⟩ := h
              obtain ⟨x, rfl, hx, -⟩ := optLed_eq_some (d := '?') rfl query_within (total_star _) hcq
              obtain ⟨y, rfl, hy, -⟩ := optLed_eq_some (d := '#') rfl query_within (total_star _) hcf
              exact ⟨x, y, by simp, hx, hy, rfl, rfl, rfl, rfl⟩

/-- A path is empty or begins with a slash. -/
theorem pathAbempty_head {w : List UInt32} (h : pathAbempty cls (w ++ r) = some r) :
    w = [] ∨ w.head? = some '/'.val := by
  have hsegment : Takes (segment cls) fun _ => True :=
    takes_star closed_any (pchar_takes terminals_any)
  have hconsumes : Consumes (seq (charOf "/") (segment cls)) :=
    consumes_seq (consumes_satisfy _) hsegment
  cases hone : seq (charOf "/") (segment cls) (w ++ r) with
  | none =>
      rw [pathAbempty, star_of_none hconsumes hone, Option.some.injEq] at h
      exact Or.inl (List.append_left_eq_self.1 h)
  | some t =>
      obtain ⟨r', hslash, -⟩ := seq_eq_some_iff.1 hone
      obtain ⟨c, hc, hset⟩ := satisfy_eq_some.1 hslash
      obtain rfl : c = '/'.val := UInt32.toNat_inj.1 (beq_iff_eq.1 hset)
      cases w with
      | nil => exact Or.inl rfl
      | cons b w => exact Or.inr (congrArg some (List.cons.inj hc).1)

/-- From the host on: a port, and a rest that begins with a slash, a query or a fragment. -/
theorem parsePortPath_eq_true (hcls : CoincideOnAscii cls)
    (h : parsePortPath cls iter parts = (true, p)) (hp : parts.port = .null)
    (ha : parts.path = .null) (hq : parts.query = .null) (hf : parts.fragment = .null) :
    ∃ y tail, iter = y ++ tail ∧ (Led ':' y p.port.chars ∧ ∀ c ∈ p.port.chars, Clear c) ∧
      Rest tail p ∧ (∀ c ∈ tail.head?, c ∈ text "/?#") ∧ p.scheme = parts.scheme ∧
      p.host = parts.host := by
  simp only [parsePortPath, hp, ha] at h
  cases hcp : optCapture (thenCapture (lit ":") (raw (port cls))) iter .null with
  | mk o vp =>
    cases o with
    | none => simp [hcp] at h
    | some r =>
        simp only [hcp] at h
        have hdigits : Within (port cls) Clear := (port_within hcls).mono fun _ hc => hc.clear
        obtain ⟨y, rfl, hy, hyc⟩ := optLed_eq_some (d := ':') rfl hdigits (total_star _) hcp
        cases hca : raw (pathAbempty cls) r .null with
        | mk o' va =>
          cases o' with
          | none => simp [hca] at h
          | some t =>
              simp only [hca] at h
              obtain ⟨x', y', rfl, hx', hy', hs, hh, hpo, hpa⟩ :=
                parseQueryFragment_eq_true h hq hf
              have hany : Within (pathAbempty cls) fun _ => True :=
                (pathAbempty_takes closed_any terminals_any).mono fun _ _ _ _ => trivial
              obtain ⟨hread, -, rfl, -⟩ := raw_eq_some hany hca
              refine ⟨y, _, rfl, ?_, ⟨x', y', ?_, hx', hy'⟩, ?_, hs, hh⟩
              · rw [hpo]
                exact ⟨hy, hyc⟩
              · rw [hpa]
              · intro c hc
                obtain hnil | hslash := pathAbempty_head hread
                · rw [hnil, List.nil_append] at hc
                  exact (by decide : text "?#" ⊆ text "/?#") (led_head hx' hy' c hc)
                · rw [List.head?_append, hslash] at hc
                  obtain rfl := Option.some.inj hc
                  decide

/-- The first step of `parse_complete`: a scheme and its colon. -/
theorem schemeColon_eq_some (hcls : CoincideOnAscii cls) {a v : BasicView UInt32}
    (h : captureThen (raw (scheme cls)) (lit ":") s a = (some r, v)) :
    (∀ c ∈ v.chars, Clear c) ∧ s = v.chars ++ ':'.val :: r := by
  simp only [captureThen] at h
  cases hraw : raw (scheme cls) s a with
  | mk o v' =>
    cases o with
    | none => simp [hraw] at h
    | some t =>
        simp only [hraw, Prod.mk.injEq] at h
        obtain ⟨hcolon, rfl⟩ := h
        obtain ⟨-, -, rfl, hclear⟩ := raw_eq_some (scheme_clear hcls) hraw
        rw [lit_eq_some hcolon]
        exact ⟨hclear, rfl⟩

/-- `[ userinfo "@" ] host`, the host captured. -/
theorem userHost_eq_some (hcls : CoincideOnAscii cls) {a v : BasicView UInt32}
    (h : thenCapture (opt (seq (userinfo cls) (lit "@"))) (raw (host cls)) s a = (some r, v)) :
    ∃ x, s = x ++ (v.chars ++ r) ∧ (x = [] ∨ ∃ u, x = u ++ ['@'.val] ∧ ∀ c ∈ u, Inside c) ∧
      v.left = some (v.chars ++ r).length ∧ host cls (v.chars ++ r) = some r := by
  have hany : Within (host cls) fun _ => True :=
    (host_takes closed_any terminals_any).mono fun _ _ _ _ => trivial
  simp only [thenCapture] at h
  cases hu : opt (seq (userinfo cls) (lit "@")) s with
  | none => simp [hu] at h
  | some t =>
      simp only [hu] at h
      obtain ⟨hread, hleft, rfl, -⟩ := raw_eq_some hany h
      simp only [opt] at hu
      cases hat : seq (userinfo cls) (lit "@") s with
      | none =>
          rw [hat] at hu
          obtain rfl := Option.some.inj hu
          exact ⟨[], rfl, Or.inl rfl, hleft, hread⟩
      | some t' =>
          rw [hat] at hu
          obtain rfl := Option.some.inj hu
          obtain ⟨r', huser, hlit⟩ := seq_eq_some_iff.1 hat
          obtain ⟨u, rfl, hinside⟩ := userinfo_inside hcls s r' huser
          refine ⟨u ++ ['@'.val], ?_, Or.inr ⟨u, rfl, hinside⟩, hleft, hread⟩
          rw [lit_eq_some hlit, List.append_assoc]
          rfl

end

/-! ### The host -/

section
variable {w r s : List UInt32}

/-- A view at its place in the text: whether a rule has matched there. -/
theorem matched_iff {p : Peg UInt32} {v : BasicView UInt32} (hs : v.chars ++ r <:+ s)
    (hleft : v.left = some (v.chars ++ r).length) :
    Matched p s v ↔ p (v.chars ++ r) = some r := by
  constructor
  · intro h
    obtain ⟨t, r', ht, hl, hp, rfl⟩ := h
    have hlen : (v.chars ++ r').length = (v.chars ++ r).length :=
      Option.some.inj (hl.symm.trans hleft)
    have heq : v.chars ++ r' = v.chars ++ r :=
      (List.suffix_of_suffix_length_le ht hs hlen.le).eq_of_length hlen
    obtain rfl := List.append_cancel_left heq
    exact hp
  · intro h
    exact ⟨_, r, hs, hleft, h, rfl⟩

/-- A text that is read in brackets. -/
theorem bracketed_eq_some {p : Peg UInt32} {q : UInt32 → Prop} (hp : Within p q)
    (h : seq (seq (lit "[") p) (lit "]") (w ++ r) = some r) :
    ∃ inner, w = '['.val :: (inner ++ [']'.val]) ∧ (∀ c ∈ inner, q c) ∧
      p (inner ++ ']'.val :: r) = some (']'.val :: r) := by
  obtain ⟨r₂, h', hclose⟩ := seq_eq_some_iff.1 h
  obtain ⟨r₁, hopen, hinner⟩ := seq_eq_some_iff.1 h'
  obtain rfl : r₂ = ']'.val :: r := lit_eq_some hclose
  obtain ⟨inner, rfl, hinside⟩ := hp _ _ hinner
  have htext : w ++ r = '['.val :: (inner ++ [']'.val]) ++ r := by
    simpa [text] using lit_eq_some hopen
  exact ⟨inner, List.append_cancel_right htext, hinside, hinner⟩

theorem not_literalChar_v : ¬LiteralChar cls 'v'.val := by
  have hwidened {ascii : Nat → Bool} {table : UInt32 → Bool} (hascii : ascii 'v'.toNat = false) :
      ¬Widened ascii table 'v'.val := by
    intro h
    rw [Widened, if_pos (by decide)] at h
    exact absurd h (Bool.eq_false_iff.1 hascii)
  intro h
  obtain h | (h | h) | h | h | h := h
  · exact hwidened rfl h
  · exact hwidened rfl h
  all_goals exact absurd h (by decide)

variable (hcls : CoincideOnAscii cls)
include hcls

theorem host_cases (h : host cls (w ++ r) = some r) :
    (∃ inner, w = '['.val :: (inner ++ [']'.val]) ∧ (∀ c ∈ inner, Inside c) ∧
      alt (ipV6Address cls) (ipVfuture cls) (inner ++ ']'.val :: r) = some (']'.val :: r)) ∨
      ∀ c ∈ w, Clear c := by
  rw [host, alt_assoc] at h
  obtain hliteral | hname := alt_eq_some h
  · exact Or.inl (bracketed_eq_some (bracketed_inside hcls) hliteral)
  · obtain ⟨w', hw, hclear⟩ := name_clear hcls _ _ hname
    rw [List.append_cancel_right hw]
    exact Or.inr hclear

theorem hostShape_of_host (h : host cls (w ++ r) = some r) : HostShape w := by
  obtain ⟨inner, hw, hinside, -⟩ | hclear := host_cases hcls h
  · exact Or.inr ⟨inner, hw, hinside⟩
  · exact Or.inl hclear

/-- A host that begins with a bracket is an IPv6 address if no `v` follows. -/
theorem ipV6Literal_iff (h : host cls (w ++ r) = some r) :
    seq (seq (lit "[") (ipV6Address cls)) (lit "]") (w ++ r) = some r ↔
      w.head? = some '['.val ∧ w[1]? ≠ some 'v'.val := by
  constructor
  · intro hread
    have hchars : Within (ipV6Address cls) (LiteralChar cls) :=
      ipV6Address_takes (closed_all _) (hexNumerals_literal hcls)
    obtain ⟨inner, rfl, hinner, -⟩ := bracketed_eq_some hchars hread
    refine ⟨rfl, ?_⟩
    intro hv
    have hmem : 'v'.val ∈ inner ++ [']'.val] := List.mem_of_getElem? (i := 0) hv
    obtain hmem | hmem := List.mem_append.1 hmem
    · exact not_literalChar_v (hinner _ hmem)
    · exact absurd (List.mem_singleton.1 hmem) (by decide)
  · intro hw
    obtain ⟨hhead, hv⟩ := hw
    obtain ⟨inner, rfl, -, hinner⟩ | hclear := host_cases hcls h
    · obtain hv6 | hfuture := alt_eq_some hinner
      · have hopen : lit "[" ('['.val :: (inner ++ ']'.val :: r)) =
            some (inner ++ ']'.val :: r) := rfl
        have hclose : lit "]" (']'.val :: r) = some r := rfl
        have htext : '['.val :: (inner ++ [']'.val]) ++ r = '['.val :: (inner ++ ']'.val :: r) := by
          simp
        rw [htext]
        exact seq_eq_some_iff.2 ⟨_, seq_eq_some_iff.2 ⟨_, hopen, hv6⟩, hclose⟩
      · -- the other alternative begins with the `v`
        rw [ipVfuture, seq_assoc, seq_assoc] at hfuture
        obtain ⟨r₁, hlit, -⟩ := seq_eq_some_iff.1 hfuture
        have htext : inner ++ ']'.val :: r = 'v'.val :: r₁ := lit_eq_some hlit
        cases inner with
        | nil => exact absurd (List.cons.inj htext).1 (by decide)
        | cons c inner => exact absurd (congrArg some (List.cons.inj htext).1) hv
    · exact absurd (by decide) (hclear _ (List.mem_of_mem_head? hhead))

theorem ipV4Address_local : Local (QuadChar cls) (ipV4Address cls) := by
  have hP := local_compositional (QuadChar cls)
  have hdigit : Local (QuadChar cls) cls.digit :=
    local_satisfy fun c hc => Or.inl (isDigit_char hcls hc)
  have hlit : ∀ l ∈ ["25", "2", "1", "."], Local (QuadChar cls) (lit l) := by
    have hcodes : ∀ l ∈ ["25", "2", "1", "."],
        ((codes l).all fun n => isDigit n || n == '.'.toNat) = true := by decide
    intro l hl
    refine local_tokens ?_
    intro f hf c hc
    obtain ⟨n, hn, rfl⟩ := List.mem_map.1 hf
    obtain rfl : c.toNat = n := beq_iff_eq.1 hc
    obtain h | h := Bool.or_eq_true_iff.1 (List.all_eq_true.1 (hcodes l hl) _ hn)
    · exact Or.inl (isDigit_ascii h)
    · exact Or.inr (UInt32.toNat_inj.1 (beq_iff_eq.1 h))
  have hset : ∀ set ∈ ["0-5", "0-4", "1-9"], Local (QuadChar cls) (charOf set) := by
    intro set hset
    exact local_satisfy fun c hc => Or.inl (isDigit_ascii (octetSets_digit hset hc))
  have hoctet : Local (QuadChar cls) (decOctet cls) := by
    refine hP.alt (hP.alt (hP.alt (hP.alt ?_ ?_) ?_) ?_) hdigit
    · exact hP.seq (hlit "25" (by simp)) (hset "0-5" (by simp))
    · exact hP.seq (hP.seq (hlit "2" (by simp)) (hset "0-4" (by simp))) hdigit
    · exact hP.seq (hlit "1" (by simp)) (hP.times hdigit 2)
    · exact hP.seq (hset "1-9" (by simp)) hdigit
  have hdot : Local (QuadChar cls) (lit ".") := hlit "." (by simp)
  exact hP.seq (hP.seq (hP.seq (hP.seq (hP.seq (hP.seq hoctet hdot) hoctet) hdot) hoctet) hdot)
    hoctet

end

/-! ### The two forms -/

theorem host_total : Total (host cls) := total_alt _ (total_star _)

/-- The query and the fragment are all the text holds. -/
theorem parseQueryFragment_fst (s : List UInt32) (parts : WideParts) :
    (parseQueryFragment cls s parts).1 = true ↔ queryFragment cls s = some [] := by
  obtain ⟨r, hr⟩ := total_opt (seq (lit "?") (query cls)) s
  obtain ⟨t, ht⟩ := total_opt (seq (lit "#") (fragment cls)) r
  obtain ⟨vq, hq⟩ := ((captures_raw (query cls)).after (lit "?")).opt.eq hr parts.query
  obtain ⟨vf, hf⟩ := ((captures_raw (fragment cls)).after (lit "#")).opt.eq ht parts.fragment
  rw [queryFragment, seq_eq_some_iff.2 ⟨r, hr, ht⟩, Option.some.injEq]
  simp only [parseQueryFragment, hq, hf, List.isEmpty_iff]

/-- From the host on, the driver follows the rules. -/
theorem parsePortPath_fst (s : List UInt32) (parts : WideParts) :
    (parsePortPath cls s parts).1 = true ↔
      seq (seq (opt (seq (lit ":") (port cls))) (pathAbempty cls)) (queryFragment cls) s = some [] := by
  obtain ⟨r, hr⟩ := total_opt (seq (lit ":") (port cls)) s
  obtain ⟨t, ht⟩ : ∃ t, pathAbempty cls r = some t := total_star _ r
  obtain ⟨vp, hp⟩ := ((captures_raw (port cls)).after (lit ":")).opt.eq hr parts.port
  obtain ⟨va, ha⟩ := (captures_raw (pathAbempty cls)).eq ht parts.path
  simp only [parsePortPath, hp, ha, seq, hr, ht]
  exact parseQueryFragment_fst t _

/-- An authority is read up to the host, and from there on. -/
theorem authority_eq {s r : List UInt32}
    (h : seq (opt (seq (userinfo cls) (lit "@"))) (host cls) s = some r) (p : Peg UInt32) :
    seq (seq (authority cls) (pathAbempty cls)) p s =
      seq (seq (opt (seq (lit ":") (port cls))) (pathAbempty cls)) p r := by
  simp only [authority, seq_assoc]
  rw [← seq_assoc (opt (seq (userinfo cls) (lit "@"))), seq, h]

theorem userHost_total : Total (seq (opt (seq (userinfo cls) (lit "@"))) (host cls)) :=
  total_seq (total_opt _) host_total

theorem authority_total : Total (authority cls) := total_seq userHost_total (total_opt _)

theorem parseAuthority_fst (s : List UInt32) (parts : WideParts) :
    (parseAuthority cls s parts).1 = true ↔ IsAuthorityForm cls s := by
  obtain ⟨r, hr⟩ := @userHost_total cls s
  obtain ⟨v, hv⟩ := ((captures_raw (host cls)).after _).eq hr parts.host
  rw [IsAuthorityForm, authority_eq hr, ← parsePortPath_fst r { parts with host := v }]
  simp only [parseAuthority, hv]

theorem parseComplete_fst (s : List UInt32) (parts : WideParts) :
    (parseComplete cls s parts).1 = true ↔ IsComplete cls s := by
  rw [IsComplete]
  cases hs : seq (scheme cls) (lit ":") s with
  | none =>
      obtain ⟨v, hv⟩ := ((captures_raw (scheme cls)).before (lit ":")).eq hs parts.scheme
      have hno : seq (seq (scheme cls) (lit ":")) (seq (knownHierPart cls) (queryFragment cls)) s =
          none := by rw [seq, hs]
      simp only [parseComplete, hv, hno]
      simp
  | some old =>
      obtain ⟨v, hv⟩ := ((captures_raw (scheme cls)).before (lit ":")).eq hs parts.scheme
      have hread : seq (seq (scheme cls) (lit ":")) (seq (knownHierPart cls) (queryFragment cls)) s =
          seq (knownHierPart cls) (queryFragment cls) old := by rw [seq, hs]
      rw [hread]
      cases hl : lit "//" old with
      | none =>
          have hhost : thenCapture (seq (lit "//") (opt (seq (userinfo cls) (lit "@"))))
              (raw (host cls)) old parts.host = (none, parts.host) := by
            simp only [thenCapture, seq, hl]
          have hknown : knownHierPart cls old = some old := by
            simp only [knownHierPart, alt, seq, hl, pathEmpty, times]
          simp only [parseComplete, hv, hhost, raw, pathEmpty, times, seq, hknown]
          exact parseQueryFragment_fst old _
      | some t =>
          obtain ⟨r, hr⟩ := @userHost_total cls t
          have hslashes : seq (seq (lit "//") (opt (seq (userinfo cls) (lit "@")))) (host cls) old =
              some r := by
            rw [seq_assoc]
            exact seq_eq_some_iff.2 ⟨t, hl, hr⟩
          obtain ⟨v', hv'⟩ := ((captures_raw (host cls)).after _).eq hslashes parts.host
          obtain ⟨e, he⟩ := total_seq authority_total (total_star _) t
          have hknown : seq (knownHierPart cls) (queryFragment cls) old =
              seq (seq (authority cls) (pathAbempty cls)) (queryFragment cls) t := by
            have hfirst : seq (seq (lit "//") (authority cls)) (pathAbempty cls) old = some e := by
              rw [seq_assoc]
              exact seq_eq_some_iff.2 ⟨t, hl, he⟩
            have hone : knownHierPart cls old = some e := alt_eq_left hfirst
            have hsame : seq (authority cls) (pathAbempty cls) t = some e := he
            simp only [seq] at hsame ⊢
            simp only [hone, hsame]
          rw [hknown, authority_eq hr, ← parsePortPath_fst r { parts with scheme := v, host := v' }]
          simp only [parseComplete, hv, hv']

/-! ### The result at the places of its text -/

/-- The result holds what its text has at its places, and its host is an address by the
rules exactly where the text has one. -/
structure Laid (cls : UnicodeClasses) (s : List UInt32) (p : WideParts) (x : Places) : Prop where
  scheme : p.scheme.chars = x.scheme
  host : p.host.chars = x.host
  port : p.port.chars = x.port
  tail : Rest x.tail p
  quad : Matched (ipV4Address cls) s p.host ↔ ipV4Address cls x.host = some []
  literal : Matched (seq (seq (lit "[") (ipV6Address cls)) (lit "]")) s p.host ↔
    x.host.head? = some '['.val ∧ x.host[1]? ≠ some 'v'.val

section
variable {s t x r : List UInt32} {parts p : WideParts}

theorem not_matched_null {q : Peg UInt32} : ¬Matched q s .null := by
  intro h
  obtain ⟨t, r, -, hleft, -⟩ := h
  cases hleft

/-- Without an authority there are a scheme and a rest. -/
theorem laid_bare (hh : p.host = .null) (hp : p.port = .null) (hrest : Rest r p) :
    Laid cls s p ⟨p.scheme.chars, [], [], r⟩ where
  scheme := rfl
  host := by rw [hh]; rfl
  port := by rw [hp]; rfl
  tail := hrest
  quad := by
    rw [hh]
    exact iff_of_false not_matched_null (by intro h; cases h)
  literal := by
    rw [hh]
    exact iff_of_false not_matched_null (by simp)

/-- What both forms do with an authority. -/
theorem laid_authority (hcls : CoincideOnAscii cls) {a v : BasicView UInt32} (ht : t <:+ s)
    (hhost : thenCapture (opt (seq (userinfo cls) (lit "@"))) (raw (host cls)) t a = (some r, v))
    (h : parsePortPath cls r parts = (true, p)) (hv : parts.host = v) (hp : parts.port = .null)
    (ha : parts.path = .null) (hq : parts.query = .null) (hf : parts.fragment = .null) :
    p.scheme = parts.scheme ∧ ∃ tail, CutAs t p.host.chars p.port.chars tail ∧
      ∀ w, p.scheme.chars = w → Laid cls s p ⟨w, p.host.chars, p.port.chars, tail⟩ := by
  obtain ⟨x, rfl, hx, hleft, hread⟩ := userHost_eq_some hcls hhost
  obtain ⟨y, tail, rfl, ⟨hy, hyc⟩, hrest, hhead, hs, hh⟩ :=
    parsePortPath_eq_true hcls h hp ha hq hf
  obtain rfl : p.host = v := hh.trans hv
  have hsuffix : p.host.chars ++ (y ++ tail) <:+ s := (List.suffix_append x _).trans ht
  have hend : ∀ c ∈ (y ++ tail).head?, ¬QuadChar cls c := by
    intro c hc hquad
    refine hquad.clear ?_
    obtain ⟨rfl, -⟩ | rfl := hy
    · exact (by decide : text "/?#" ⊆ text ":/?#[]@") (hhead c hc)
    · obtain rfl : ':'.val = c := Option.some.inj hc
      decide
  refine ⟨hs, tail, ⟨x, y, rfl, hx, hostShape_of_host hcls hread, ⟨hy, hyc⟩, hhead⟩, ?_⟩
  intro w hw
  exact {
    scheme := hw
    host := rfl
    port := rfl
    tail := hrest
    quad := (matched_iff hsuffix hleft).trans ((ipV4Address_local hcls).leaves hend)
    literal := (matched_iff hsuffix hleft).trans (ipV6Literal_iff hcls hread) }

theorem parseAuthority_laid (hcls : CoincideOnAscii cls)
    (h : parseAuthority cls s .empty = (true, p)) : Laid cls s p (authorityPlaces s) := by
  simp only [parseAuthority] at h
  cases hc : thenCapture (opt (seq (userinfo cls) (lit "@"))) (raw (host cls)) s
      BasicUriParts.empty.host with
  | mk o v =>
    cases o with
    | none => simp [hc] at h
    | some r =>
        simp only [hc] at h
        obtain ⟨hs, tail, hcut, hlaid⟩ := laid_authority hcls List.suffix_rfl hc h rfl rfl rfl rfl rfl
        rw [hcut.places_eq]
        exact hlaid [] (by rw [hs]; rfl)

theorem parseComplete_laid (hcls : CoincideOnAscii cls)
    (h : parseComplete cls s .empty = (true, p)) : Laid cls s p (schemePlaces s) := by
  simp only [parseComplete] at h
  cases hc : captureThen (raw (scheme cls)) (lit ":") s BasicUriParts.empty.scheme with
  | mk o vs =>
    cases o with
    | none => simp [hc] at h
    | some old =>
        simp only [hc] at h
        obtain ⟨hclear, rfl⟩ := schemeColon_eq_some hcls hc
        rw [thenCapture_seq] at h
        cases hl : lit "//" old with
        | none =>
            have hhost : thenCapture (lit "//") (thenCapture (opt (seq (userinfo cls) (lit "@")))
                (raw (host cls))) old BasicUriParts.empty.host = (none, .null) := by
              simp only [thenCapture, hl]
              rfl
            have hpath : raw (pathEmpty cls) old BasicUriParts.empty.path =
                (some old, ⟨some old.length, []⟩) := by simp [raw, pathEmpty, times]
            simp only [hhost, hpath] at h
            obtain ⟨x, y, rfl, hx, hy, hs, hh, hpo, hpa⟩ := parseQueryFragment_eq_true h rfl rfl
            rw [schemePlaces_bare hclear (led_head hx hy), ← show p.scheme.chars = vs.chars by rw [hs]]
            exact laid_bare hh hpo ⟨x, y, by rw [hpa]; rfl, hx, hy⟩
        | some t =>
            obtain rfl : old = text "//" ++ t := lit_eq_some hl
            simp only [thenCapture_of_some hl] at h
            obtain ⟨r, hr⟩ := @userHost_total cls t
            obtain ⟨vh, hhost⟩ := ((captures_raw (host cls)).after _).eq hr BasicUriParts.empty.host
            simp only [hhost] at h
            have ht : t <:+ vs.chars ++ ':'.val :: (text "//" ++ t) :=
              ⟨vs.chars ++ ':'.val :: text "//", by simp⟩
            obtain ⟨hs, tail, hcut, hlaid⟩ := laid_authority hcls ht hhost h rfl rfl rfl rfl rfl
            rw [hcut.schemePlaces_eq hclear]
            exact hlaid vs.chars (by rw [hs])

/-- Whatever the text is, its result is laid out at its places. -/
theorem parseUri_laid (hcls : CoincideOnAscii cls) (s : List UInt32) :
    Laid cls s (parseUri cls s) (places cls s) := by
  rw [parseUri, places]
  cases hc : parseComplete cls s .empty with
  | mk b p =>
    cases b with
    | true =>
        have hform : IsComplete cls s := (parseComplete_fst s .empty).1 (by rw [hc])
        rw [if_pos hform]
        exact parseComplete_laid hcls hc
    | false =>
        have hform : ¬IsComplete cls s := by
          rw [← parseComplete_fst s .empty, hc]
          exact Bool.noConfusion
        rw [if_neg hform]
        cases ha : parseAuthority cls s .empty with
        | mk b' p' =>
          cases b' with
          | true =>
              have hform : IsAuthorityForm cls s := (parseAuthority_fst s .empty).1 (by rw [ha])
              rw [if_pos hform]
              exact parseAuthority_laid hcls ha
          | false =>
              have hform : ¬IsAuthorityForm cls s := by
                rw [← parseAuthority_fst s .empty, ha]
                exact Bool.noConfusion
              rw [if_neg hform]
              exact laid_bare rfl rfl ⟨[], [], rfl, Or.inl ⟨rfl, rfl⟩, Or.inl ⟨rfl, rfl⟩⟩

end

/-! ### When the ASCII parts are ASCII -/

section
variable {q q' : UInt32 → Prop} {u w z : List UInt32}

theorem Triplets.mono (h : Triplets q w) (hq : ∀ c, q c → q' c) : Triplets q' w := by
  intro a b hab
  obtain ⟨d, e, rest, hb, hd, he⟩ := h a b hab
  exact ⟨d, e, rest, hb, hq d hd, hq e he⟩

/-- The triplets of a part are triplets of the whole. -/
theorem Triplets.inside (h : Triplets q w) (hall : Triplets q' (u ++ (w ++ z))) :
    Triplets (fun c => q c ∧ q' c) w := by
  intro a b hab
  obtain ⟨d, e, rest, rfl, hd, he⟩ := h a b hab
  obtain ⟨d', e', rest', heq, hd', he'⟩ := hall (u ++ a) (d :: e :: rest ++ z) (by simp [hab])
  obtain ⟨rfl, htail⟩ := List.cons.inj heq
  obtain ⟨rfl, -⟩ := List.cons.inj htail
  exact ⟨d, e, rest, rfl, ⟨hd, hd'⟩, he, he'⟩

/-- Where the text behind the percent signs is all of `q'`. -/
theorem Triplets.of_all (h : Triplets q w) (hall : ∀ c ∈ w, q' c) :
    Triplets (fun c => q c ∧ q' c) w := by
  intro a b hab
  obtain ⟨d, e, rest, rfl, hd, he⟩ := h a b hab
  rw [hab] at hall
  exact ⟨d, e, rest, rfl, ⟨hd, hall d (by simp)⟩, he, hall e (by simp)⟩

theorem Led.triplets {d : Char} {x : List UInt32} (h : Led d x w) (hd : '%'.val ≠ d.val)
    (hw : Triplets q w) : Triplets q x := by
  obtain ⟨rfl, rfl⟩ | rfl := h
  · exact hw
  · exact (closed_triplets q).append (triplets_singleton hd.symm) hw

theorem Rest.triplets {t : List UInt32} {p : WideParts} (h : Rest t p)
    (hp : ∀ v ∈ [p.path, p.query, p.fragment], Triplets q v.chars) : Triplets q t := by
  obtain ⟨x, y, rfl, hx, hy⟩ := h
  have hL := closed_triplets q
  exact hL.append (hp _ (by simp)) (hL.append (hx.triplets (by decide) (hp _ (by simp)))
    (hy.triplets (by decide) (hp _ (by simp))))

/-- Path, query and fragment lie in the rest. -/
theorem Rest.parts {t : List UInt32} {p : WideParts} (h : Rest t p) :
    ∀ v ∈ [p.path, p.query, p.fragment], v.chars = [] ∨ ∃ u z, t = u ++ (v.chars ++ z) := by
  obtain ⟨x, y, rfl, hx, hy⟩ := h
  intro v hv
  simp only [List.mem_cons, List.not_mem_nil, or_false] at hv
  obtain rfl | rfl | rfl := hv
  · exact Or.inr ⟨[], x ++ y, rfl⟩
  · obtain ⟨-, hnil⟩ | rfl := hx
    · exact Or.inl hnil
    · exact Or.inr ⟨p.path.chars ++ ['?'.val], y, by simp⟩
  · obtain ⟨-, hnil⟩ | rfl := hy
    · exact Or.inl hnil
    · exact Or.inr ⟨p.path.chars ++ x ++ ['#'.val], [], by simp⟩

end

section
variable {s : List UInt32} {p : WideParts} {x : Places}

theorem widened_ascii {ascii : Nat → Bool} {table : UInt32 → Bool} {c : UInt32}
    (h : Widened ascii table c) (hc : c.toNat < 128) : ascii c.toNat = true := by
  rwa [Widened, if_pos hc] at h

theorem isXdigit_ascii {c : UInt32} (hc : isXdigit c.toNat = true) : c.toNat < 128 := by
  simp only [isXdigit, isDigit, Bool.or_eq_true, Bool.and_eq_true, decide_eq_true_eq] at hc
  omega

theorem isAlpha_ascii {c : UInt32} (hc : isAlpha c.toNat = true) : c.toNat < 128 := by
  simp only [isAlpha, Bool.or_eq_true, Bool.and_eq_true, decide_eq_true_eq] at hc
  omega

theorem isDigit_xdigit {c : UInt32} (hc : isDigit c.toNat = true) : isXdigit c.toNat = true := by
  simp [isXdigit, hc]

theorem ne_comma_of {ascii : Nat → Bool} {c : UInt32} (hascii : ascii ','.toNat = false)
    (hc : ascii c.toNat = true) : c ≠ ','.val := by
  intro heq
  rw [heq] at hc
  exact absurd hc (Bool.eq_false_iff.1 hascii)

theorem KeepsAscii.places (hlaid : Laid cls s p x) (h : KeepsAscii cls s p) : AsciiPlaces cls x where
  scheme := by
    rw [← hlaid.scheme]
    intro c hc
    obtain h | h | rfl | rfl | rfl := h.scheme c hc
    · exact ⟨isAlpha_ascii h, ne_comma_of (by decide) h⟩
    · exact ⟨isXdigit_ascii (isDigit_xdigit h), ne_comma_of (by decide) h⟩
    all_goals decide
  port := by
    rw [← hlaid.port]
    exact fun c hc => isXdigit_ascii (isDigit_xdigit (h.port c hc))
  triplets := by
    have hmember (v : BasicView UInt32) (hv : v ∈ [p.scheme, p.host, p.port, p.path, p.query,
        p.fragment]) : Triplets (fun c => c.toNat < 128) v.chars :=
      (h.triplets v hv).mono fun _ => isXdigit_ascii
    intro w hw
    simp only [List.mem_cons, List.not_mem_nil, or_false] at hw
    obtain rfl | rfl := hw
    · rw [← hlaid.host]
      exact hmember p.host (by simp)
    · refine hlaid.tail.triplets ?_
      intro v hv
      exact hmember v (List.mem_append_right [p.scheme, p.host, p.port] hv)
  quad := by
    rw [← hlaid.quad, ← hlaid.host]
    exact h.quad
  literal := by
    intro hopen hv
    rw [← hlaid.host]
    exact h.literal (hlaid.literal.2 ⟨hopen, hv⟩)

theorem AsciiPlaces.keeps (hcls : CoincideOnAscii cls) (hlaid : Laid cls s (parseUri cls s) x)
    (h : AsciiPlaces cls x) : KeepsAscii cls s (parseUri cls s) := by
  obtain ⟨hscheme, hport, htriplets, -, -⟩ := parseUri_widened hcls s
  exact {
    scheme := by
      intro c hc
      obtain ⟨hlt, hcomma⟩ := h.scheme c (hlaid.scheme ▸ hc)
      obtain halpha | hdigit | hmark := (hscheme c hc).resolve_right hcomma
      · exact Or.inl (widened_ascii halpha hlt)
      · exact Or.inr (Or.inl (widened_ascii hdigit hlt))
      · exact Or.inr (Or.inr hmark)
    port := fun c hc => widened_ascii (hport c hc) (h.port c (hlaid.port ▸ hc))
    triplets := by
      intro v hv
      refine Triplets.mono (q := fun c => XdigitChar cls c ∧ c.toNat < 128) ?_ fun c hc =>
        widened_ascii hc.1 hc.2
      have hwide := htriplets v hv
      obtain hv | hv : v ∈ [(parseUri cls s).scheme, (parseUri cls s).host, (parseUri cls s).port] ∨
          v ∈ [(parseUri cls s).path, (parseUri cls s).query, (parseUri cls s).fragment] :=
        List.mem_append.1 hv
      · simp only [List.mem_cons, List.not_mem_nil, or_false] at hv
        obtain rfl | rfl | rfl := hv
        · exact hwide.of_all fun c hc => (h.scheme c (hlaid.scheme ▸ hc)).1
        · have hhost := h.triplets x.host (by simp)
          exact hwide.inside (u := []) (z := []) (by simpa [hlaid.host] using hhost)
        · exact hwide.of_all fun c hc => h.port c (hlaid.port ▸ hc)
      · obtain hnil | ⟨u, z, htail⟩ := hlaid.tail.parts v hv
        · rw [hnil]
          exact (closed_triplets _).nil
        · exact hwide.inside (htail ▸ h.triplets x.tail (by simp))
    quad := by
      rw [hlaid.quad, hlaid.host]
      exact h.quad
    literal := by
      rw [hlaid.literal, hlaid.host]
      exact fun hopen => h.literal hopen.1 hopen.2 }

/-- The ASCII parts of the result are ASCII exactly if the text is ASCII, and its scheme
without a comma, at their places. -/
theorem parseUri_keepsAscii_iff (hcls : CoincideOnAscii cls) (s : List UInt32) :
    KeepsAscii cls s (parseUri cls s) ↔ AsciiPlaces cls (places cls s) :=
  ⟨fun h => h.places (parseUri_laid hcls s), fun h => h.keeps hcls (parseUri_laid hcls s)⟩

end

/-- A class of ASCII and blocks beyond it. -/
def withBlocks (ascii : Nat → Bool) (blocks : List (Nat × Nat)) (c : UInt32) : Bool :=
  ascii c.toNat || blocks.any fun block => block.1 ≤ c.toNat && c.toNat ≤ block.2

theorem withBlocks_ascii {ascii : Nat → Bool} {blocks : List (Nat × Nat)}
    (hblocks : ∀ block ∈ blocks, 128 ≤ block.1) {c : UInt8} (hc : IsAscii c) :
    withBlocks ascii blocks c.toUInt32 = ascii c.toNat := by
  have hnone : (blocks.any fun block => block.1 ≤ c.toNat && c.toNat ≤ block.2) = false := by
    refine List.any_eq_false.2 ?_
    intro block hmem hin
    have hlow := hblocks block hmem
    rw [Bool.and_eq_true, decide_eq_true_eq] at hin
    rw [IsAscii] at hc
    omega
  rw [withBlocks, UInt8.toNat_toUInt32, hnone, Bool.or_false]

/-- The character database on some blocks: the letters of Latin-1 and Latin Extended-A,
the Arabic-Indic digits, and the full-width digits and letters. -/
def someBlocks : UnicodeClasses where
  isAlpha := withBlocks isAlpha [(0xc0, 0xd6), (0xd8, 0xf6), (0xf8, 0x17f), (0xff21, 0xff3a),
    (0xff41, 0xff5a)]
  isDigit := withBlocks isDigit [(0x660, 0x669), (0xff10, 0xff19)]
  isXdigit := withBlocks isXdigit [(0xff10, 0xff19), (0xff21, 0xff26), (0xff41, 0xff46)]

theorem someBlocks_coincide : CoincideOnAscii someBlocks where
  alpha _ hc := withBlocks_ascii (by decide) hc
  digit _ hc := withBlocks_ascii (by decide) hc
  xdigit _ hc := withBlocks_ascii (by decide) hc

/-- Letters beyond ASCII in the host are no obstacle. -/
theorem parseUri_keepsAscii_letters :
    (parseUri someBlocks (text "http://żółć.pl:80/%4a")).host.chars = text "żółć.pl" ∧
      KeepsAscii someBlocks (text "http://żółć.pl:80/%4a")
        (parseUri someBlocks (text "http://żółć.pl:80/%4a")) := by
  have hplaces : places someBlocks (text "http://żółć.pl:80/%4a") =
      ⟨text "http", text "żółć.pl", text "80", text "/%4a"⟩ := by decide +kernel
  have hscheme : (text "http").all (fun c => c.toNat < 128 && c != ','.val) = true := by decide
  have hport : (text "80").all (fun c => c.toNat < 128) = true := by decide
  have hpath : text "/%4a" = ['/'.val] ++ ['%'.val, '4'.val, 'a'.val] := by decide
  have htriplet : Triplets (fun c => isXdigit c.toNat = true) ['%'.val, '4'.val, 'a'.val] :=
    triplets_triplet (by decide) (by decide) (by decide)
  refine ⟨by decide +kernel, (parseUri_keepsAscii_iff someBlocks_coincide _).2 ?_⟩
  rw [hplaces]
  exact {
    scheme := by
      intro c hc
      simpa using List.all_eq_true.1 hscheme c hc
    port := by
      intro c hc
      simpa using List.all_eq_true.1 hport c hc
    triplets := by
      intro w hw
      simp only [List.mem_cons, List.not_mem_nil, or_false] at hw
      obtain rfl | rfl := hw
      · exact triplets_of_free (by decide)
      · rw [hpath]
        exact (closed_triplets _).append (triplets_singleton (by decide))
          (htriplet.mono fun _ => isXdigit_ascii)
    quad := fun hread => absurd hread (by decide +kernel)
    literal := fun hopen => absurd hopen (by decide) }

/-- Decimal digits in a port, a letter in a scheme, hexadecimal digits in a triplet, decimal
digits in a dotted quad and hexadecimal ones in an IPv6 address, all beyond ASCII; and the
comma in a scheme. -/
theorem parseUri_beyondAscii :
    ¬KeepsAscii someBlocks (text "http://w:٨٠/") (parseUri someBlocks (text "http://w:٨٠/")) ∧
      (∃ c ∈ (parseUri someBlocks (text "żttp://1.2.3.٤/%４１")).scheme.chars, 128 ≤ c.toNat) ∧
      ¬Triplets (fun c => isXdigit c.toNat = true)
        (parseUri someBlocks (text "żttp://1.2.3.٤/%４１")).path.chars ∧
      (Matched (ipV4Address someBlocks) (text "żttp://1.2.3.٤/%４１")
          (parseUri someBlocks (text "żttp://1.2.3.٤/%４１")).host ∧
        ∃ c ∈ (parseUri someBlocks (text "żttp://1.2.3.٤/%４１")).host.chars, 128 ≤ c.toNat) ∧
      (Matched (seq (seq (lit "[") (ipV6Address someBlocks)) (lit "]")) (text "http://[::１]/")
          (parseUri someBlocks (text "http://[::１]/")).host ∧
        ∃ c ∈ (parseUri someBlocks (text "http://[::１]/")).host.chars, 128 ≤ c.toNat) ∧
      ','.val ∈ (parseUri someBlocks (text "a,b://h/")).scheme.chars := by
  have hport : (parseUri someBlocks (text "http://w:٨٠/")).port.chars = text "٨٠" := by
    decide +kernel
  have hparts : parseUri someBlocks (text "żttp://1.2.3.٤/%４１") =
      ⟨⟨some 18, text "żttp"⟩, ⟨some 11, text "1.2.3.٤"⟩, .null, ⟨some 4, text "/%４１"⟩, .null,
        .null⟩ := by decide +kernel
  have hquad : ipV4Address someBlocks (text "1.2.3.٤/%４１") = some (text "/%４１") := by
    decide +kernel
  have hhost : (parseUri someBlocks (text "http://[::１]/")).host = ⟨some 6, text "[::１]"⟩ := by
    decide +kernel
  have hliteral : seq (seq (lit "[") (ipV6Address someBlocks)) (lit "]") (text "[::１]/") =
      some (text "/") := by decide +kernel
  have hcomma : (parseUri someBlocks (text "a,b://h/")).scheme.chars = text "a,b" := by
    decide +kernel
  rw [hparts, hhost, hcomma]
  refine ⟨?_, ⟨'ż'.val, by decide, by decide⟩, ?_, ⟨?_, '٤'.val, by decide, by decide⟩,
    ⟨?_, '１'.val, by decide, by decide⟩, by decide⟩
  · intro h
    have hdigit := h.port '٨'.val (by rw [hport]; decide)
    exact absurd hdigit (by decide)
  · intro h
    obtain ⟨a, b, v, hv, ha, -⟩ := h (text "/") (text "４１") (by decide)
    obtain rfl : '４'.val = a := (List.cons.inj hv).1
    exact absurd ha (by decide)
  · exact ⟨text "1.2.3.٤/%４１", text "/%４１", ⟨text "żttp://", by decide⟩, by decide, hquad,
      by decide⟩
  · exact ⟨text "[::１]/", text "/", ⟨text "http://", by decide⟩, by decide, hliteral, by decide⟩

end Foxy.Uri.Unicode
