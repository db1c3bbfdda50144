import Foxy.Uri.Addresses
import Foxy.Uri.Unicode

/-!
# Foxy.Uri.WideParts

What the members of a `basic_uri_parts<char32_t>` are made of.

The rules over `char32_t` use the classes of X3's `unicode` encoding wherever those
over `char` use the classes of ASCII, in `port`, `scheme` and `pct_encoded` as well as
in `unreserved`. A scheme may therefore hold any letter, a port any decimal digit and a
triplet any hexadecimal digit of Unicode. What the rules do keep is shown here: beyond
ASCII nothing but these classes gets into the members.

Every member is what its rule matched somewhere in the text (`parseUri_members`), so
what the words of a rule are made of is all there is to show of a member.
-/

namespace Foxy.Uri

open Peg X3

/-! ### The words of the rules -/

namespace Unicode

/-- The terminals of a dotted quad consume words of `L`. -/
structure Numerals (cls : UnicodeClasses) (L : List UInt32 → Prop) : Prop where
  digit : Takes cls.digit L
  lit : ∀ l ∈ ["25", "2", "1", "."], Takes (lit l) L
  set : ∀ set ∈ ["0-5", "0-4", "1-9"], Takes (charOf set) L

/-- The terminals of an IPv6 address consume words of `L`. -/
structure HexNumerals (cls : UnicodeClasses) (L : List UInt32 → Prop) : Prop
    extends Numerals cls L where
  xdigit : Takes cls.xdigit L
  colon : ∀ l ∈ [":", "::"], Takes (X3.lit l) L

/-- The terminals of a registered name or IPv4 address consume words of `L`, where the
triplet counts as a terminal. -/
structure NameTerminals (cls : UnicodeClasses) (L : List UInt32 → Prop) : Prop
    extends Numerals cls L where
  alpha : Takes cls.alpha L
  pctEncoded : Takes (pctEncoded cls) L
  plain : ∀ set ∈ ["-._~", "!$&'()*+,;="], Takes (charOf set) L

/-- All terminals behind the scheme consume words of `L`. -/
structure Terminals (cls : UnicodeClasses) (L : List UInt32 → Prop) : Prop
    extends HexNumerals cls L, NameTerminals cls L where
  mark : ∀ l ∈ ["v", "[", "]"], Takes (X3.lit l) L
  delim : ∀ set ∈ [":@", "/", "/?"], Takes (charOf set) L

section
variable {cls : UnicodeClasses} {L : List UInt32 → Prop} (hL : Closed L)

theorem unreserved_takes (h : NameTerminals cls L) : Takes (unreserved cls) L :=
  takes_alt (takes_alt h.alpha h.digit) (h.plain "-._~" (by simp))

theorem nameChar_takes (h : NameTerminals cls L) :
    Takes (alt (alt (unreserved cls) (pctEncoded cls)) subDelims) L :=
  takes_alt (takes_alt (unreserved_takes h) h.pctEncoded) (h.plain "!$&'()*+,;=" (by simp))

theorem pchar_takes (h : Terminals cls L) : Takes (pchar cls) L :=
  takes_alt (nameChar_takes h.toNameTerminals) (h.delim ":@" (by simp))

include hL

theorem decOctet_takes (h : Numerals cls L) : Takes (decOctet cls) L := by
  refine takes_alt (takes_alt (takes_alt (takes_alt ?_ ?_) ?_) ?_) h.digit
  · exact takes_seq hL (h.lit "25" (by simp)) (h.set "0-5" (by simp))
  · exact takes_seq hL (takes_seq hL (h.lit "2" (by simp)) (h.set "0-4" (by simp))) h.digit
  · exact takes_seq hL (h.lit "1" (by simp)) ((takes_compositional hL).times h.digit 2)
  · exact takes_seq hL (h.set "1-9" (by simp)) h.digit

theorem ipV4Address_takes (h : Numerals cls L) : Takes (ipV4Address cls) L := by
  have ho := decOctet_takes hL h
  have hdot : Takes (lit ".") L := h.lit "." (by simp)
  exact takes_seq hL (takes_seq hL (takes_seq hL (takes_seq hL (takes_seq hL (takes_seq hL
    ho hdot) ho) hdot) ho) hdot) ho

/-- All nine alternatives. -/
theorem ipV6Address_takes (h : HexNumerals cls L) : Takes (ipV6Address cls) L := by
  have hP := takes_compositional hL
  have hc : Takes (lit ":") L := h.colon ":" (by simp)
  have hcc : Takes (lit "::") L := h.colon "::" (by simp)
  have hh : Takes (h16 cls) L := hP.between 1 4 h.xdigit
  have hl : Takes (ls32 cls) L :=
    takes_alt (hP.seq (hP.seq hh hc) hh) (ipV4Address_takes hL h.toNumerals)
  have hgroup (n : Nat) : Takes (times n (seq (h16 cls) (lit ":"))) L := hP.times (hP.seq hh hc) n
  have hlead (n : Nat) : Takes (opt (seq (h16 cls) (between 0 n (seq (lit ":") (h16 cls))))) L :=
    hP.opt (hP.seq hh (hP.between 0 n (hP.seq hc hh)))
  unfold ipV6Address
  refine hP.alt (hP.alt (hP.alt (hP.alt (hP.alt (hP.alt (hP.alt (hP.alt ?_ ?_) ?_) ?_) ?_) ?_) ?_)
    ?_) ?_
  · exact hP.seq (hgroup 6) hl
  · exact hP.seq (hP.seq hcc (hgroup 5)) hl
  · exact hP.seq (hP.seq (hP.seq (hP.opt hh) hcc) (hgroup 4)) hl
  · exact hP.seq (hP.seq (hP.seq
      (hP.opt (hP.seq (hP.between 0 1 (hP.seq hh hc)) hh)) hcc) (hgroup 3)) hl
  · exact hP.seq (hP.seq (hlead 2) hcc) (hP.seq hl (hP.times (hP.seq hc hh) 2))
  · exact hP.seq (hP.seq (hP.seq (hP.seq (hlead 3) hcc) hh) hc) hl
  · exact hP.seq (hP.seq (hlead 4) hcc) hl
  · exact hP.seq (hP.seq (hlead 5) hcc) hh
  · exact hP.seq (hlead 6) hcc

/-- What stands between the brackets of a literal. -/
theorem bracketed_takes (hhex : HexNumerals cls L) (h : NameTerminals cls L)
    (hv : Takes (lit "v") L) : Takes (alt (ipV6Address cls) (ipVfuture cls)) L := by
  have hchar : Takes (alt (alt (unreserved cls) subDelims) (lit ":")) L :=
    takes_alt (takes_alt (unreserved_takes h) (h.plain "!$&'()*+,;=" (by simp)))
      (hhex.colon ":" (by simp))
  have hfuture : Takes (ipVfuture cls) L :=
    takes_seq hL (takes_seq hL (takes_seq hL hv
      (takes_seq hL hhex.xdigit (takes_star hL hhex.xdigit))) (h.lit "." (by simp)))
      (takes_seq hL hchar (takes_star hL hchar))
  exact takes_alt (ipV6Address_takes hL hhex) hfuture

theorem name_takes (h : NameTerminals cls L) : Takes (alt (ipV4Address cls) (regName cls)) L :=
  takes_alt (ipV4Address_takes hL h.toNumerals) (takes_star hL (nameChar_takes h))

theorem host_takes (h : Terminals cls L) : Takes (host cls) L := by
  have hliteral : Takes (ipLiteral cls) L :=
    takes_seq hL (takes_seq hL (h.mark "[" (by simp))
      (bracketed_takes hL h.toHexNumerals h.toNameTerminals (h.mark "v" (by simp))))
      (h.mark "]" (by simp))
  rw [host, alt_assoc]
  exact takes_alt hliteral (name_takes hL h.toNameTerminals)

theorem userinfo_takes (h : NameTerminals cls L) (hc : Takes (lit ":") L) :
    Takes (userinfo cls) L :=
  takes_star hL (takes_alt (nameChar_takes h) hc)

theorem pathAbempty_takes (h : Terminals cls L) : Takes (pathAbempty cls) L :=
  takes_star hL (takes_seq hL (h.delim "/" (by simp)) (takes_star hL (pchar_takes h)))

theorem query_takes (h : Terminals cls L) : Takes (query cls) L :=
  takes_star hL (takes_alt (pchar_takes h) (h.delim "/?" (by simp)))

end

/-! ### Characters and triplets -/

/-- A class of ASCII, carried on beyond ASCII by a table. -/
def Widened (ascii : Nat → Bool) (table : UInt32 → Bool) (c : UInt32) : Prop :=
  if c.toNat < 128 then ascii c.toNat = true else table c = true

/-- A character of a port. -/
def DigitChar (cls : UnicodeClasses) (c : UInt32) : Prop := Widened isDigit cls.isDigit c

/-- A digit of a triplet. -/
def XdigitChar (cls : UnicodeClasses) (c : UInt32) : Prop := Widened isXdigit cls.isXdigit c

/-- A character of a scheme. -/
def SchemeChar (cls : UnicodeClasses) (c : UInt32) : Prop :=
  Widened isAlpha cls.isAlpha c ∨ DigitChar cls c ∨ c = '+'.val ∨ c = '-'.val ∨ c = '.'.val

/-- A character of a dotted quad. -/
def QuadChar (cls : UnicodeClasses) (c : UInt32) : Prop := DigitChar cls c ∨ c = '.'.val

/-- A character of an IPv6 address between its brackets. -/
def LiteralChar (cls : UnicodeClasses) (c : UInt32) : Prop :=
  XdigitChar cls c ∨ QuadChar cls c ∨ c = ':'.val ∨ c = '['.val ∨ c = ']'.val

/-- Every percent sign has two characters of `q` behind it. -/
def Triplets (q : UInt32 → Prop) (w : List UInt32) : Prop :=
  ∀ u v, w = u ++ '%'.val :: v → ∃ a b v', v = a :: b :: v' ∧ q a ∧ q b

theorem closed_triplets (q : UInt32 → Prop) : Closed (Triplets q) where
  nil := by
    intro u v h
    exact absurd h.symm (List.append_ne_nil_of_right_ne_nil _ (List.cons_ne_nil _ _))
  append := by
    intro w w' hw hw' u v h
    obtain ⟨u', hu, hrest⟩ | ⟨u', hu, hrest⟩ := List.append_eq_append_iff.1 h
    · exact hw' u' v hrest
    · cases u' with
      | nil => exact hw' [] v hrest.symm
      | cons c u' =>
          obtain ⟨rfl, rfl⟩ := List.cons.inj hrest
          obtain ⟨a, b, v', rfl, ha, hb⟩ := hw u u' hu
          exact ⟨a, b, v' ++ w', rfl, ha, hb⟩

theorem triplets_of_free {q : UInt32 → Prop} {w : List UInt32} (h : '%'.val ∉ w) :
    Triplets q w := by
  intro u v hw
  exact absurd (hw ▸ List.mem_append_right u List.mem_cons_self) h

section
variable {cls : UnicodeClasses}

/-- The code points of a literal. -/
def text (l : String) : List UInt32 := l.toList.map Char.val

/-- A literal consumes itself. -/
theorem lit_takes {l : String} {L : List UInt32 → Prop} (hl : L (text l)) : Takes (lit l) L := by
  intro s r h
  obtain ⟨w, rfl, hw⟩ := tokens_eq_some.1 h
  rw [codes, List.map_map, List.forall₂_map_left_iff] at hw
  have htext : w = text l := by
    rw [text, ← List.forall₂_eq_eq_eq, List.forall₂_map_right_iff]
    exact hw.flip.imp fun c d hcd => UInt32.toNat_inj.1 (beq_iff_eq.1 hcd)
  exact ⟨w, rfl, htext ▸ hl⟩

theorem terminals_any : Terminals cls fun _ => True where
  digit := takes_satisfy fun _ _ => trivial
  lit _ _ := lit_takes trivial
  set _ _ := takes_satisfy fun _ _ => trivial
  xdigit := takes_satisfy fun _ _ => trivial
  colon _ _ := lit_takes trivial
  alpha := takes_satisfy fun _ _ => trivial
  pctEncoded := takes_seq closed_any (takes_seq closed_any (lit_takes trivial)
    (takes_satisfy fun _ _ => trivial)) (takes_satisfy fun _ _ => trivial)
  plain _ _ := takes_satisfy fun _ _ => trivial
  mark _ _ := lit_takes trivial
  delim _ _ := takes_satisfy fun _ _ => trivial

/-- A class that coincides with ASCII's on ASCII. -/
theorem widened_of {ascii : Nat → Bool} {table : UInt32 → Bool} {c : UInt32}
    (h : ∀ b : UInt8, IsAscii b → table b.toUInt32 = ascii b.toNat) (hc : table c = true) :
    Widened ascii table c := by
  rw [Widened]
  split
  case isTrue hlt =>
      have hbyte : c.toUInt8.toNat = c.toNat := by
        rw [UInt32.toNat_toUInt8]
        omega
      have hself : c.toUInt8.toUInt32 = c :=
        UInt32.toNat_inj.1 (by rw [UInt8.toNat_toUInt32, hbyte])
      have hascii : IsAscii c.toUInt8 := by
        rw [IsAscii, hbyte]
        exact hlt
      rw [← hbyte, ← h _ hascii, hself]
      exact hc
  case isFalse => exact hc

theorem isDigit_ascii {c : UInt32} (hc : isDigit c.toNat = true) : DigitChar cls c := by
  have hlt : c.toNat < 128 := by
    simp only [isDigit, Bool.and_eq_true, decide_eq_true_eq] at hc
    omega
  rw [DigitChar, Widened, if_pos hlt]
  exact hc

theorem ne_pct_of_widened {ascii : Nat → Bool} {table : UInt32 → Bool} {c : UInt32}
    (hascii : ascii '%'.toNat = false) (hc : Widened ascii table c) : c ≠ '%'.val := by
  intro heq
  rw [heq, Widened, if_pos (by decide)] at hc
  exact absurd hc (Bool.eq_false_iff.1 hascii)

theorem triplets_singleton {q : UInt32 → Prop} {c : UInt32} (h : c ≠ '%'.val) : Triplets q [c] :=
  triplets_of_free fun hmem => h (List.mem_singleton.1 hmem).symm

theorem triplets_triplet {q : UInt32 → Prop} {a b : UInt32} (ha : q a) (hb : q b)
    (hq : ¬q '%'.val) : Triplets q ['%'.val, a, b] := by
  intro u v h
  cases u with
  | nil => exact ⟨a, b, [], (List.cons.inj h).2.symm, ha, hb⟩
  | cons c u =>
      -- behind the percent sign there is none
      have hmem : '%'.val ∈ [a, b] := by
        rw [(List.cons.inj h).2]
        exact List.mem_append_right u List.mem_cons_self
      obtain heq | heq : '%'.val = a ∨ '%'.val = b := by simpa using hmem
      · exact absurd (heq ▸ ha) hq
      · exact absurd (heq ▸ hb) hq

/-- No set of the rules has a percent sign. -/
theorem charOf_triplets {set : String} {q : UInt32 → Prop}
    (hset : charSet (codes set) '%'.toNat = false) : Takes (charOf set) (Triplets q) := by
  refine takes_satisfy fun c hc => triplets_singleton ?_
  intro heq
  rw [heq] at hc
  exact absurd hc (Bool.eq_false_iff.1 hset)

theorem lit_triplets {l : String} {q : UInt32 → Prop} (hl : '%'.val ∉ text l) :
    Takes (lit l) (Triplets q) := lit_takes (triplets_of_free hl)

section
variable (hcls : CoincideOnAscii cls)
include hcls

theorem isDigit_char {c : UInt32} (hc : cls.isDigit c = true) : DigitChar cls c :=
  widened_of hcls.digit hc

theorem isXdigit_char {c : UInt32} (hc : cls.isXdigit c = true) : XdigitChar cls c :=
  widened_of hcls.xdigit hc

theorem pctEncoded_triplets : Takes (pctEncoded cls) (Triplets (XdigitChar cls)) := by
  intro s r h
  obtain ⟨s₂, h', hb⟩ := seq_eq_some_iff.1 h
  obtain ⟨s₁, hpct, ha⟩ := seq_eq_some_iff.1 h'
  obtain ⟨a, rfl, hfirst⟩ := satisfy_eq_some.1 ha
  obtain ⟨b, rfl, hsecond⟩ := satisfy_eq_some.1 hb
  obtain ⟨w, rfl, rfl⟩ := lit_takes (L := (· = text "%")) rfl _ _ hpct
  refine ⟨['%'.val, a, b], rfl, triplets_triplet (isXdigit_char hcls hfirst)
    (isXdigit_char hcls hsecond) ?_⟩
  intro hq
  exact ne_pct_of_widened rfl hq rfl

theorem terminals_triplets : Terminals cls (Triplets (XdigitChar cls)) where
  digit := takes_satisfy fun _ hc =>
    triplets_singleton (ne_pct_of_widened rfl (isDigit_char hcls hc))
  lit := by
    intro l hl
    have hfree : ∀ l ∈ ["25", "2", "1", "."], '%'.val ∉ text l := by decide
    exact lit_triplets (hfree l hl)
  set := by
    intro set hset
    have hfree : ∀ set ∈ ["0-5", "0-4", "1-9"], charSet (codes set) '%'.toNat = false := by decide
    exact charOf_triplets (hfree set hset)
  xdigit := takes_satisfy fun _ hc =>
    triplets_singleton (ne_pct_of_widened rfl (isXdigit_char hcls hc))
  colon := by
    intro l hl
    have hfree : ∀ l ∈ [":", "::"], '%'.val ∉ text l := by decide
    exact lit_triplets (hfree l hl)
  alpha := takes_satisfy fun _ hc =>
    triplets_singleton (ne_pct_of_widened rfl (widened_of hcls.alpha hc))
  pctEncoded := pctEncoded_triplets hcls
  plain := by
    intro set hset
    have hfree : ∀ set ∈ ["-._~", "!$&'()*+,;="], charSet (codes set) '%'.toNat = false := by
      decide
    exact charOf_triplets (hfree set hset)
  mark := by
    intro l hl
    have hfree : ∀ l ∈ ["v", "[", "]"], '%'.val ∉ text l := by decide
    exact lit_triplets (hfree l hl)
  delim := by
    intro set hset
    have hfree : ∀ set ∈ [":@", "/", "/?"], charSet (codes set) '%'.toNat = false := by decide
    exact charOf_triplets (hfree set hset)

/-- An alphabet with the characters of a dotted quad. -/
theorem numerals_all {q : UInt32 → Prop} (hq : ∀ c, QuadChar cls c → q c) :
    Numerals cls fun w => ∀ c ∈ w, q c where
  digit := within_satisfy fun c hc => hq c (Or.inl (isDigit_char hcls hc))
  lit := by
    have htext : ∀ l ∈ ["25", "2", "1", "."],
        ((text l).all fun c => isDigit c.toNat || c == '.'.val) = true := by decide
    intro l hl
    refine lit_takes ?_
    intro c hc
    obtain hdigit | hdot := Bool.or_eq_true_iff.1 (List.all_eq_true.1 (htext l hl) c hc)
    · exact hq c (Or.inl (isDigit_ascii hdigit))
    · exact hq c (Or.inr (beq_iff_eq.1 hdot))
  set := by
    intro set hset
    refine within_satisfy fun c hc => ?_
    exact hq c (Or.inl (isDigit_ascii (octetSets_digit hset hc)))

theorem hexNumerals_literal : HexNumerals cls fun w => ∀ c ∈ w, LiteralChar cls c where
  toNumerals := numerals_all hcls fun _ hc => Or.inr (Or.inl hc)
  xdigit := within_satisfy fun _ hc => Or.inl (isXdigit_char hcls hc)
  colon := by
    have htext : ∀ l ∈ [":", "::"], ((text l).all (· == ':'.val)) = true := by decide
    intro l hl
    refine lit_takes ?_
    intro c hc
    exact Or.inr (Or.inr (Or.inl (beq_iff_eq.1 (List.all_eq_true.1 (htext l hl) c hc))))

theorem ipV4Address_within : Within (ipV4Address cls) (QuadChar cls) :=
  ipV4Address_takes (closed_all _) (numerals_all hcls fun _ hc => hc)

theorem ipV6Literal_within :
    Within (seq (seq (lit "[") (ipV6Address cls)) (lit "]")) (LiteralChar cls) := by
  have hclosed : Closed fun w => ∀ c ∈ w, LiteralChar cls c := closed_all _
  have hopen : Within (lit "[") (LiteralChar cls) := by
    refine lit_takes ?_
    intro c hc
    exact Or.inr (Or.inr (Or.inr (Or.inl (List.mem_singleton.1 hc))))
  have hclose : Within (lit "]") (LiteralChar cls) := by
    refine lit_takes ?_
    intro c hc
    exact Or.inr (Or.inr (Or.inr (Or.inr (List.mem_singleton.1 hc))))
  exact takes_seq hclosed (takes_seq hclosed hopen (ipV6Address_takes hclosed
    (hexNumerals_literal hcls))) hclose

theorem port_within : Within (port cls) (DigitChar cls) :=
  within_star (within_satisfy fun _ hc => isDigit_char hcls hc)

/-- `char_(U"+-.")` is the range from the plus to the dot, with the comma in it. -/
theorem scheme_within : Within (scheme cls) fun c => SchemeChar cls c ∨ c = ','.val := by
  have halpha : Within cls.alpha fun c => SchemeChar cls c ∨ c = ','.val :=
    within_satisfy fun _ hc => Or.inl (Or.inl (widened_of hcls.alpha hc))
  have hdigit : Within cls.digit fun c => SchemeChar cls c ∨ c = ','.val :=
    within_satisfy fun _ hc => Or.inl (Or.inr (Or.inl (isDigit_char hcls hc)))
  have hset : Within (charOf "+-.") fun c => SchemeChar cls c ∨ c = ','.val := by
    refine within_satisfy fun c hc => ?_
    have hrange : 43 ≤ c.toNat ∧ c.toNat ≤ 46 :=
      charSet_range (by decide) (show charSet [43, '-'.toNat, 46] c.toNat = true from hc)
    have hcode (d : Char) (hd : c.toNat = d.val.toNat) : c = d.val := UInt32.toNat_inj.1 hd
    obtain h | h | h | h : c.toNat = 43 ∨ c.toNat = 44 ∨ c.toNat = 45 ∨ c.toNat = 46 := by omega
    · exact Or.inl (Or.inr (Or.inr (Or.inl (hcode '+' h))))
    · exact Or.inr (hcode ',' h)
    · exact Or.inl (Or.inr (Or.inr (Or.inr (Or.inl (hcode '-' h)))))
    · exact Or.inl (Or.inr (Or.inr (Or.inr (Or.inr (hcode '.' h)))))
  exact takes_seq (closed_all _) halpha (within_star (within_alt (within_alt halpha hdigit) hset))

end

end

end Unicode

/-! ### Members and their rules -/

section
variable {α : Type}

/-- The view is what the rule took from the text at the view's place. -/
def Matched (p : Peg α) (s : List α) (v : BasicView α) : Prop :=
  ∃ t r, t <:+ s ∧ v.left = some t.length ∧ p t = some r ∧ t = v.chars ++ r

/-- The member has been left alone, or its rule has matched. -/
def Member (p : Peg α) (s : List α) (v : BasicView α) : Prop := v = .null ∨ Matched p s v

/-- The grammar goes on in the text, and its attribute stays a member. -/
def Fills (c : BasicCapture α) (p : Peg α) : Prop :=
  ∀ s t v, t <:+ s → Member p s v →
    Member p s (c t v).2 ∧ ∀ r, (c t v).1 = some r → r <:+ s

variable {p q : Peg α} {c : BasicCapture α} {L : List α → Prop} {s : List α} {v : BasicView α}

theorem Matched.word (hp : Takes p L) (h : Matched p s v) : L v.chars := by
  obtain ⟨t, r, -, -, hpt, ht⟩ := h
  obtain ⟨w, hw, hLw⟩ := hp t r hpt
  rw [ht] at hw
  exact List.append_cancel_right hw ▸ hLw

theorem Member.word (hp : Takes p L) (hnil : L []) (h : Member p s v) : L v.chars := by
  obtain rfl | h := h
  · exact hnil
  · exact h.word hp

theorem fills_raw (hp : Takes p fun _ => True) : Fills (raw p) p := by
  intro s t v ht hv
  simp only [raw]
  cases hpt : p t with
  | none => exact ⟨hv, fun _ h => absurd h (Option.some_ne_none _).symm⟩
  | some r =>
      obtain ⟨w, rfl, -⟩ := hp t r hpt
      refine ⟨Or.inr ⟨w ++ r, r, ht, rfl, hpt, ?_⟩, ?_⟩
      · show w ++ r = (w ++ r).take ((w ++ r).length - r.length) ++ r
        rw [List.length_append, Nat.add_sub_cancel, List.take_left]
      · intro r' hr'
        obtain rfl := Option.some.inj hr'
        exact (List.suffix_append w r).trans ht

theorem Fills.after (h : Fills c p) (hq : Takes q fun _ => True) : Fills (thenCapture q c) p := by
  intro s t v ht hv
  simp only [thenCapture]
  cases hqt : q t with
  | none => exact ⟨hv, fun _ h => absurd h (Option.some_ne_none _).symm⟩
  | some r =>
      obtain ⟨w, rfl, -⟩ := hq t r hqt
      exact h s r v ((List.suffix_append w r).trans ht) hv

theorem Fills.before (h : Fills c p) (hq : Takes q fun _ => True) : Fills (captureThen c q) p := by
  intro s t v ht hv
  obtain ⟨hmember, hleft⟩ := h s t v ht hv
  simp only [captureThen]
  cases hc : c t v with
  | mk o a =>
      rw [hc] at hmember hleft
      cases o with
      | none => exact ⟨hmember, fun _ h => absurd h (Option.some_ne_none _).symm⟩
      | some r =>
          refine ⟨hmember, ?_⟩
          intro r' hr'
          obtain ⟨w, rfl, -⟩ := hq r r' hr'
          exact (List.suffix_append w r').trans (hleft _ rfl)

theorem Fills.opt (h : Fills c p) : Fills (optCapture c) p := by
  intro s t v ht hv
  obtain ⟨hmember, hleft⟩ := h s t v ht hv
  simp only [optCapture]
  cases hc : c t v with
  | mk o a =>
      rw [hc] at hmember hleft
      cases o with
      | none => exact ⟨hmember, fun r hr => Option.some.inj hr ▸ ht⟩
      | some r => exact ⟨hmember, hleft⟩

end

namespace Unicode

/-- Every member comes from its rule. -/
structure Members (cls : UnicodeClasses) (s : List UInt32) (p : WideParts) : Prop where
  scheme : Member (scheme cls) s p.scheme
  host : Member (host cls) s p.host
  port : Member (port cls) s p.port
  path : Member (pathAbempty cls) s p.path ∨ Member (pathEmpty cls) s p.path
  query : Member (query cls) s p.query
  fragment : Member (fragment cls) s p.fragment

section
variable {cls : UnicodeClasses} {s iter : List UInt32} {parts : WideParts}

theorem members_empty : Members cls s .empty :=
  ⟨Or.inl rfl, Or.inl rfl, Or.inl rfl, Or.inl (Or.inl rfl), Or.inl rfl, Or.inl rfl⟩

theorem lit_any (l : String) : Takes (lit l : Peg UInt32) fun _ => True := lit_takes trivial

theorem query_any : Takes (query cls) fun _ => True := query_takes closed_any terminals_any

theorem fragment_any : Takes (fragment cls) fun _ => True := query_any

theorem userinfoAt_any : Takes (opt (seq (userinfo cls) (lit "@"))) fun _ => True :=
  takes_opt closed_any (takes_seq closed_any (userinfo_takes closed_any
    terminals_any.toNameTerminals (lit_any ":")) (lit_any "@"))

theorem parseQueryFragment_members (hiter : iter <:+ s) (h : Members cls s parts) :
    Members cls s (parseQueryFragment cls iter parts).2 := by
  obtain ⟨hq, hleft⟩ := ((fills_raw query_any).after (lit_any "?")).opt s iter parts.query hiter
    h.query
  simp only [parseQueryFragment]
  cases hc : optCapture (thenCapture (lit "?") (raw (query cls))) iter parts.query with
  | mk o v =>
      rw [hc] at hq hleft
      cases o with
      | none => exact { h with query := hq }
      | some r =>
          obtain ⟨hf, -⟩ := ((fills_raw fragment_any).after (lit_any "#")).opt s r parts.fragment
            (hleft r rfl) h.fragment
          simp only
          cases hc' : optCapture (thenCapture (lit "#") (raw (fragment cls))) r parts.fragment with
          | mk o' v' =>
              rw [hc'] at hf
              cases o' with
              | none => exact { h with query := hq, fragment := hf }
              | some r' => exact { h with query := hq, fragment := hf }

theorem parsePortPath_members (hiter : iter <:+ s) (h : Members cls s parts)
    (hpath : parts.path = .null) : Members cls s (parsePortPath cls iter parts).2 := by
  have hport : Takes (port cls) fun _ => True := takes_star closed_any terminals_any.digit
  have habempty : Takes (pathAbempty cls) fun _ => True :=
    pathAbempty_takes closed_any terminals_any
  obtain ⟨hp, hleft⟩ := ((fills_raw hport).after (lit_any ":")).opt s iter parts.port hiter h.port
  simp only [parsePortPath]
  cases hc : optCapture (thenCapture (lit ":") (raw (port cls))) iter parts.port with
  | mk o v =>
      rw [hc] at hp hleft
      cases o with
      | none => exact { h with port := hp }
      | some r =>
          obtain ⟨ha, hleft'⟩ := fills_raw habempty s r parts.path (hleft r rfl) (Or.inl hpath)
          simp only
          cases hc' : raw (pathAbempty cls) r parts.path with
          | mk o' v' =>
              rw [hc'] at ha hleft'
              cases o' with
              | none => exact { h with port := hp, path := Or.inl ha }
              | some r' =>
                  exact parseQueryFragment_members (hleft' r' rfl)
                    { h with port := hp, path := Or.inl ha }

theorem parseComplete_members : Members cls s (parseComplete cls s .empty).2 := by
  have hscheme : Takes (scheme cls) fun _ => True :=
    takes_seq closed_any terminals_any.alpha (takes_star closed_any (takes_alt
      (takes_alt terminals_any.alpha terminals_any.digit) (takes_satisfy fun _ _ => trivial)))
  have hempty : Takes (pathEmpty cls) fun _ => True :=
    (takes_compositional closed_any).times (pchar_takes terminals_any) 0
  have h : Members cls s .empty := members_empty
  obtain ⟨hs, hleft⟩ := ((fills_raw hscheme).before (lit_any ":")) s s _ List.suffix_rfl h.scheme
  simp only [parseComplete]
  cases hc : captureThen (raw (scheme cls)) (lit ":") s BasicUriParts.empty.scheme with
  | mk o v =>
      rw [hc] at hs hleft
      cases o with
      | none => exact { h with scheme := hs }
      | some old =>
          have hold := hleft old rfl
          obtain ⟨hh, hleft'⟩ := (fills_raw (host_takes closed_any terminals_any)).after
            (takes_seq closed_any (lit_any "//") userinfoAt_any) s old _ hold h.host
          simp only
          cases hc' : thenCapture (seq (lit "//") (opt (seq (userinfo cls) (lit "@"))))
              (raw (host cls)) old BasicUriParts.empty.host with
          | mk o' v' =>
              rw [hc'] at hh hleft'
              cases o' with
              | some r =>
                  exact parsePortPath_members (hleft' r rfl)
                    { h with scheme := hs, host := hh } rfl
              | none =>
                  obtain ⟨hp, hleft''⟩ := fills_raw hempty s old BasicUriParts.empty.path hold
                    (Or.inl rfl)
                  simp only
                  cases hc'' : raw (pathEmpty cls) old BasicUriParts.empty.path with
                  | mk o'' v'' =>
                      rw [hc''] at hp hleft''
                      cases o'' with
                      | none => exact { h with scheme := hs, host := hh, path := Or.inr hp }
                      | some r =>
                          exact parseQueryFragment_members (hleft'' r rfl)
                            { h with scheme := hs, host := hh, path := Or.inr hp }

theorem parseAuthority_members : Members cls s (parseAuthority cls s .empty).2 := by
  have h : Members cls s .empty := members_empty
  obtain ⟨hh, hleft⟩ := (fills_raw (host_takes closed_any terminals_any)).after
    userinfoAt_any s s _ List.suffix_rfl h.host
  simp only [parseAuthority]
  cases hc : thenCapture (opt (seq (userinfo cls) (lit "@"))) (raw (host cls)) s
      BasicUriParts.empty.host with
  | mk o v =>
      rw [hc] at hh hleft
      cases o with
      | none => exact { h with host := hh }
      | some r => exact parsePortPath_members (hleft r rfl) { h with host := hh } rfl

theorem parseUri_members : Members cls s (parseUri cls s) := by
  have hcomplete : Members cls s (parseComplete cls s .empty).2 := parseComplete_members
  have hauthority : Members cls s (parseAuthority cls s .empty).2 := parseAuthority_members
  simp only [parseUri]
  split
  case h_1 p hp =>
      rw [hp] at hcomplete
      exact hcomplete
  case h_2 =>
      split
      case h_1 p hp =>
          rw [hp] at hauthority
          exact hauthority
      case h_2 => exact members_empty

/-- Every member is made of whole triplets and other characters. -/
theorem members_triplets (hcls : CoincideOnAscii cls) {p : WideParts} (h : Members cls s p) :
    ∀ v ∈ [p.scheme, p.host, p.port, p.path, p.query, p.fragment],
      Triplets (XdigitChar cls) v.chars := by
  have hL := closed_triplets (XdigitChar cls)
  have ht := terminals_triplets hcls
  have hscheme : Takes (scheme cls) (Triplets (XdigitChar cls)) :=
    takes_seq hL ht.alpha (takes_star hL (takes_alt (takes_alt ht.alpha ht.digit)
      (charOf_triplets (by decide))))
  have hempty : Takes (pathEmpty cls) (Triplets (XdigitChar cls)) :=
    (takes_compositional hL).times (pchar_takes ht) 0
  have hquery := query_takes hL ht
  have hpath : Triplets (XdigitChar cls) p.path.chars := by
    obtain h' | h' := h.path
    · exact h'.word (pathAbempty_takes hL ht) hL.nil
    · exact h'.word hempty hL.nil
  intro v hv
  simp only [List.mem_cons, List.not_mem_nil, or_false] at hv
  obtain rfl | rfl | rfl | rfl | rfl | rfl := hv
  · exact h.scheme.word hscheme hL.nil
  · exact h.host.word (host_takes hL ht) hL.nil
  · exact h.port.word (takes_star hL ht.digit) hL.nil
  · exact hpath
  · exact h.query.word hquery hL.nil
  · exact h.fragment.word hquery hL.nil

/-- Beyond ASCII a scheme holds letters and decimal digits only, a port and a dotted quad
decimal digits, a triplet and an IPv6 address hexadecimal digits; on ASCII they hold what
the rules over `char` allow. -/
theorem parseUri_widened (hcls : CoincideOnAscii cls) (s : List UInt32) :
    (∀ c ∈ (parseUri cls s).scheme.chars, SchemeChar cls c ∨ c = ','.val) ∧
      (∀ c ∈ (parseUri cls s).port.chars, DigitChar cls c) ∧
      (∀ v ∈ [(parseUri cls s).scheme, (parseUri cls s).host, (parseUri cls s).port,
        (parseUri cls s).path, (parseUri cls s).query, (parseUri cls s).fragment],
        Triplets (XdigitChar cls) v.chars) ∧
      (Matched (ipV4Address cls) s (parseUri cls s).host →
        ∀ c ∈ (parseUri cls s).host.chars, QuadChar cls c) ∧
      (Matched (seq (seq (lit "[") (ipV6Address cls)) (lit "]")) s (parseUri cls s).host →
        ∀ c ∈ (parseUri cls s).host.chars, LiteralChar cls c) := by
  have h : Members cls s (parseUri cls s) := parseUri_members
  refine ⟨?_, ?_, members_triplets hcls h, ?_, ?_⟩
  · exact h.scheme.word (scheme_within hcls) (closed_all _).nil
  · exact h.port.word (port_within hcls) (closed_all _).nil
  · intro hquad
    exact hquad.word (ipV4Address_within hcls)
  · intro hliteral
    exact hliteral.word (ipV6Literal_within hcls)

end

end Unicode

end Foxy.Uri
