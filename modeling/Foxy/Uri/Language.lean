import Foxy.Uri.Choices
import Foxy.Uri.DottedQuads
import Foxy.Uri.Literals
import Foxy.Uri.Targets

/-!
# Foxy.Uri.Language

The texts that `uri` and `relative_ref` of `foxy/uri.hpp` match completely.

Every rule reads greedily and chooses at once, so that a text could have a reading
that the rules do not find. They find every one: what a rule reads ends at a
character that the rule cannot read, and each delimiter of the RFC is such a
character for what stands in front of it. Only at three places does the RFC have
more, or less, than the rules: a scheme may hold commas, a registered name that
begins with an IPv4 address has to be one, and of the IP literals two kinds are
missed, one kind is taken in and the `v` is a small letter. What the rules have
there is written down by its text too (`HasComma`, `IsName`, `IsLiteral`).
-/

namespace Foxy.Uri

open Peg X3

/-! ### Coded text -/

theorem isNameChar_ne_pct {c : UInt8} (h : isNameChar c = true) : c ≠ chr '%' := by
  intro heq
  rw [heq] at h
  exact absurd h (by decide)

theorem isNameChar_of {c : UInt8} (h : isAlpha c.toNat = true ∨ isDigit c.toNat = true ∨
    charSet (codes "-._~") c.toNat = true ∨ charSet (codes "!$&'()*+,;=") c.toNat = true) :
    isNameChar c = true := by
  simp only [isNameChar, Bool.or_eq_true]
  tauto

theorem nameChar_names : Takes nameChar (Coded fun c => isNameChar c = true) := by
  have hP := coded_compositional fun c => isNameChar c = true
  have hone {f : UInt8 → Bool} (hf : ∀ c, f c = true → isNameChar c = true) :
      Takes (satisfy f) (Coded fun c => isNameChar c = true) :=
    takes_satisfy fun c hc => .plain (isNameChar_ne_pct (hf c hc)) (hf c hc) .nil
  refine nameChar_of hP (unreserved_of hP (hone ?_) (hone ?_) (hone ?_)) (pctEncoded_coded _)
    (hone ?_)
  · exact fun c hc => isNameChar_of (Or.inl hc)
  · exact fun c hc => isNameChar_of (Or.inr (Or.inl hc))
  · exact fun c hc => isNameChar_of (Or.inr (Or.inr (Or.inl hc)))
  · exact fun c hc => isNameChar_of (Or.inr (Or.inr (Or.inr hc)))

/-- A character of the RFC's userinfo, percent triplets apart. -/
def UserChar (c : UInt8) : Prop := isNameChar c = true ∨ c = chr ':'

/-- A character of the RFC's query or fragment. -/
def QueryChar (c : UInt8) : Prop := PathChar c ∨ c = chr '?'

/-- A repetition reads exactly the coded texts if its body reads exactly their
units. -/
theorem star_complete {p : Peg UInt8} {q : UInt8 → Prop} (hp : Consumes p)
    (htakes : Takes p (Coded q)) (hplain : ∀ c r, c ≠ chr '%' → q c → p (c :: r) = some r)
    (hpct : ∀ a b r, isXdigit a.toNat = true → isXdigit b.toNat = true →
      p (triplet a b ++ r) = some r) {w : Bytes} : star p w = some [] ↔ Coded q w :=
  ⟨((coded_compositional q).star hp htakes).whole, star_coded_all hp hplain hpct⟩

theorem regName_complete {w : Bytes} : regName w = some [] ↔ RegName w := by
  constructor
  · intro h
    have hcoded := ((coded_compositional _).star nameChar_consumes nameChar_names).whole h
    exact hcoded.mono fun c _ hc => (regName_fits c).1 hc
  · exact RegName.rule

theorem takes_char {l : String} {c : UInt8} {q : UInt8 → Prop} (hl : ascii l = [c])
    (hpct : c ≠ chr '%') (hc : q c) : Takes (lit l) (Coded q) := by
  intro s r h
  refine ⟨[c], ?_, .plain hpct hc .nil⟩
  rw [lit_eq_some h, hl]

theorem userinfo_complete {w : Bytes} : userinfo w = some [] ↔ Coded UserChar w := by
  refine star_complete userinfoChar_consumes ?_ ?_ ?_
  · refine takes_alt ?_ (takes_char (c := chr ':') rfl (by decide) (Or.inr rfl))
    exact nameChar_names.mono fun w hw => hw.mono fun c _ hc => Or.inl hc
  · intro c r hpct hc
    rcases hc with hc | rfl
    · exact alt_eq_left ((nameChar_plain hpct r).trans (if_pos hc))
    · exact (alt_eq_right ((nameChar_plain hpct r).trans (if_neg (by decide)))).trans rfl
  · exact fun a b r ha hb => alt_eq_left (nameChar_triplet ha hb r)

theorem slashQuestion_iff (c : UInt8) :
    charSet (codes "/?") c.toNat = true ↔ c = chr '/' ∨ c = chr '?' := by
  have hcodes : codes "/?" = [47, 63] := rfl
  rw [← UInt8.toNat_inj, ← UInt8.toNat_inj, hcodes]
  simp [charSet, chr]

theorem query_complete {w : Bytes} : query w = some [] ↔ Coded QueryChar w := by
  refine star_complete queryChar_consumes ?_ ?_ ?_
  · refine takes_alt (pchar_takes.mono fun w hw => hw.mono fun c _ hc => Or.inl hc) ?_
    refine takes_satisfy ?_
    intro c hc
    rcases (slashQuestion_iff c).1 hc with rfl | rfl
    · exact .plain (by decide) (Or.inl (Or.inr rfl)) .nil
    · exact .plain (by decide) (Or.inr rfl) .nil
  · intro c r hpct hc
    by_cases hp : isPchar c = true
    · exact alt_eq_left ((pchar_plain hpct r).trans (if_pos hp))
    · have hmark : c = chr '/' ∨ c = chr '?' := by
        rcases hc with (hc | hc) | hc
        · exact absurd hc hp
        · exact Or.inl hc
        · exact Or.inr hc
      refine (alt_eq_right ((pchar_plain hpct r).trans (if_neg hp))).trans ?_
      exact satisfy_eq_some.2 ⟨c, rfl, (slashQuestion_iff c).2 hmark⟩
  · exact fun a b r ha hb => alt_eq_left (pchar_triplet ha hb r)

/-! ### Query and fragment -/

/-- An optional part behind a delimiter is there and read to its end, or absent. -/
theorem optLed_complete {l : String} {d : Char} {p : Peg UInt8} {s : Bytes}
    (hl : ascii l = [chr d]) (hall : l.toList.all (·.toNat < 256) = true) :
    opt (seq (lit l) p) s = some [] ↔
      ∃ o : Option Bytes, s = led d o ∧ ∀ w ∈ o, p w = some [] := by
  constructor
  · intro h
    simp only [opt] at h
    cases hp : seq (lit l) p s with
    | none =>
        rw [hp] at h
        exact ⟨none, Option.some.inj h, by simp⟩
    | some r =>
        rw [hp] at h
        obtain rfl := Option.some.inj h
        obtain ⟨w, hlit, hw⟩ := seq_eq_some_iff.1 hp
        refine ⟨some w, ?_, ?_⟩
        · rw [lit_eq_some hlit, hl]
          rfl
        · intro w' hw'
          obtain rfl := Option.some.inj hw'
          exact hw
  · intro h
    obtain ⟨o, rfl, ho⟩ := h
    cases o with
    | none =>
        have hnone : lit l ([] : Bytes) = none := lit_of_head_ne (c := chr d) (by rw [hl]; rfl) (by simp)
        simp only [led, opt, seq, hnone]
    | some w =>
        have hlit : lit l (chr d :: w) = some w := by
          have happ := lit_append hall w
          rwa [hl] at happ
        simp only [led, opt, seq, hlit, ho w rfl]

theorem led_head {d : Char} {o : Option Bytes} {c : UInt8} (hc : c ∈ (led d o).head?) :
    c = chr d := by
  cases o with
  | none => cases hc
  | some w => exact (Option.some.inj hc).symm

/-- `[ "?" query ] [ "#" fragment ]` of the RFC. -/
def IsTail (t : Bytes) : Prop :=
  ∃ q f : Option Bytes, t = led '?' q ++ led '#' f ∧ (∀ w ∈ q, Coded QueryChar w) ∧
    ∀ w ∈ f, Coded QueryChar w

theorem pchar_local : Local (· ∉ ascii "/?#") pchar := by
  have hP := local_compositional fun c => c ∉ ascii "/?#"
  refine pchar_of hP (nameChar_of hP (local_fewer unreserved_local (by decide))
    (local_fewer pctEncoded_local (by decide)) (local_fewer subDelims_local (by decide))) ?_
  exact local_satisfy fun c hc => charSets_free (":@", "/?#") (by simp [charSets]) c hc

theorem query_local : Local (· ∉ ascii "#") query := by
  have hP := local_compositional fun c => c ∉ ascii "#"
  refine query_of hP (local_fewer pchar_local (by decide)) ?_
  exact local_satisfy fun c hc => charSets_free ("/?", "#") (by simp [charSets]) c hc

theorem queryFragment_complete {t : Bytes} : queryFragment t = some [] ↔ IsTail t := by
  have hq : Local (· ∉ ascii "#") (opt (seq (lit "?") query)) :=
    (local_compositional _).opt ((local_compositional _).seq (local_lit (by decide)) query_local)
  have hw : Within (opt (seq (lit "?") query)) (· ∉ ascii "#") :=
    (within_compositional _).opt ((within_compositional _).seq (within_lit (by decide)) query_within)
  have hmark : ∀ t, opt (seq (lit "#") fragment) t = some [] → ∀ c ∈ t.head?, ¬c ∉ ascii "#" := by
    intro t ht c hc
    obtain ⟨f, rfl, -⟩ := (optLed_complete rfl (by decide)).1 ht
    obtain rfl := led_head hc
    decide
  rw [queryFragment, seq_complete hw fun w t ht => hq.leaves (hmark t ht)]
  constructor
  · intro h
    obtain ⟨v, w, rfl, hv, hw⟩ := h
    obtain ⟨q, rfl, hq⟩ := (optLed_complete rfl (by decide)).1 hv
    obtain ⟨f, rfl, hf⟩ := (optLed_complete rfl (by decide)).1 hw
    exact ⟨q, f, rfl, fun w hw => query_complete.1 (hq w hw), fun w hw => query_complete.1 (hf w hw)⟩
  · intro h
    obtain ⟨q, f, rfl, hq, hf⟩ := h
    exact ⟨_, _, rfl,
      (optLed_complete rfl (by decide)).2 ⟨q, rfl, fun w hw => query_complete.2 (hq w hw)⟩,
      (optLed_complete rfl (by decide)).2 ⟨f, rfl, fun w hw => query_complete.2 (hf w hw)⟩⟩

/-! ### Literals -/

theorem litSeq_eq_some {l : String} {d : Char} {p : Peg UInt8} {s r : Bytes}
    (hl : ascii l = [chr d]) (hall : l.toList.all (·.toNat < 256) = true) :
    seq (lit l) p s = some r ↔ ∃ w, s = chr d :: w ∧ p w = some r := by
  constructor
  · intro h
    obtain ⟨w, hlit, hw⟩ := seq_eq_some_iff.1 h
    refine ⟨w, ?_, hw⟩
    rw [lit_eq_some hlit, hl]
    rfl
  · intro h
    obtain ⟨w, rfl, hw⟩ := h
    have happ := lit_append hall w
    rw [hl] at happ
    exact seq_eq_some_iff.2 ⟨w, happ, hw⟩

/-- The IPv6 addresses: the words of the RFC but for the two misread kinds, and
those with an IPv4 address before two groups, which the RFC does not have. -/
def IsIpV6 (a : Bytes) : Prop := (∃ x : IpV6, x.text = a ∧ ¬x.Misread) ∨ DottedInside a

/-- `"v" 1*HEXDIG "." 1*( unreserved / sub-delims / ":" )` of the RFC, with the small
letter. -/
def IsIpVfuture (a : Bytes) : Prop :=
  ∃ v w, a = chr 'v' :: (v ++ chr '.' :: w) ∧ (v ≠ [] ∧ ∀ c ∈ v, isXdigit c.toNat = true) ∧
    w ≠ [] ∧ ∀ c ∈ w, UserChar c

/-- `"[" ( IPv6address / IPvFuture ) "]"`. -/
def IsLiteral (h : Bytes) : Prop :=
  ∃ a, h = chr '[' :: (a ++ [chr ']']) ∧ (IsIpV6 a ∨ IsIpVfuture a)

/-- At the end of a text an address is over. -/
theorem over_nil : Over [] := by
  intro c hc
  cases hc

theorem ipV6Address_complete {a : Bytes} : ipV6Address a = some [] ↔ IsIpV6 a := by
  constructor
  · intro h
    refine (ipV6Address_takes.whole h).imp_left ?_
    intro hword
    obtain ⟨x, rfl⟩ := hword
    refine ⟨x, rfl, ?_⟩
    intro hmis
    -- a misread word leaves something
    obtain ⟨r, hr, hstuck⟩ := ipV6Address_misread over_nil hmis
    rw [List.append_nil, h] at hr
    obtain rfl := Option.some.inj hr
    rcases hstuck with hnil | hnil <;> cases hnil
  · intro h
    rcases h with ⟨x, rfl, hx⟩ | hinside
    · have hall := ipV6Address_text over_nil hx
      rwa [List.append_nil] at hall
    · exact hinside.accepted

theorem ipVfutureChar_complete {w : Bytes} :
    plus (alt (alt unreserved subDelims) (lit ":")) w = some [] ↔ w ≠ [] ∧ ∀ c ∈ w, UserChar c := by
  have hcolon : (lit ":" : Peg UInt8) = satisfy fun c => c.toNat == 58 := tokens_singleton _
  have hchar (c : UInt8) : (c.toNat == 58) = true ↔ c = chr ':' := by
    rw [beq_iff_eq, ← UInt8.toNat_inj]
    exact Iff.rfl
  rw [hcolon, unreserved, subDelims, alpha, digit, charOf, charOf, alt_satisfy, alt_satisfy,
    alt_satisfy, alt_satisfy, plus_satisfy_complete]
  refine and_congr_right fun _ => forall₂_congr fun c _ => ?_
  rw [Bool.or_eq_true, hchar]
  exact Iff.rfl

theorem ipVfuture_complete {a : Bytes} : ipVfuture a = some [] ↔ IsIpVfuture a := by
  have hx : Local (fun c : UInt8 => isXdigit c.toNat = true) (plus xdigit) :=
    (local_compositional _).plus (consumes_satisfy _) (local_satisfy fun _ hc => hc)
  have hwithin : Within (plus xdigit) (fun c : UInt8 => isXdigit c.toNat = true) :=
    (within_compositional _).plus (consumes_satisfy _) (within_satisfy fun _ hc => hc)
  have hdot : ∀ w t, seq (lit ".") (plus (alt (alt unreserved subDelims) (lit ":"))) t = some [] →
      (plus xdigit (w ++ t) = some t ↔ plus xdigit w = some []) := by
    intro w t ht
    obtain ⟨r, rfl, -⟩ := (litSeq_eq_some (d := '.') rfl (by decide)).1 ht
    refine hx.leaves ?_
    intro c hc
    cases hc
    decide
  rw [ipVfuture, seq_assoc, seq_assoc, litSeq_eq_some (d := 'v') rfl (by decide)]
  constructor
  · intro h
    obtain ⟨r, rfl, hr⟩ := h
    obtain ⟨v, t, rfl, hv, ht⟩ := (seq_complete hwithin hdot).1 hr
    obtain ⟨w, rfl, hw⟩ := (litSeq_eq_some (d := '.') rfl (by decide)).1 ht
    exact ⟨v, w, rfl, plus_satisfy_complete.1 hv, ipVfutureChar_complete.1 hw⟩
  · intro h
    obtain ⟨v, w, rfl, hv, hw⟩ := h
    refine ⟨_, rfl, (seq_complete hwithin hdot).2 ⟨v, _, rfl, plus_satisfy_complete.2 hv, ?_⟩⟩
    exact (litSeq_eq_some rfl (by decide)).2 ⟨w, rfl, ipVfutureChar_complete.2 hw⟩

/-- An address does not begin with a letter behind the `f`. -/
theorem ipV6Address_v (t : Bytes) : ipV6Address (chr 'v' :: t) = none := by
  have hhead (c : UInt8) (hc : c ≠ chr 'v') : (chr 'v' :: t).head? ≠ some c := by
    simpa using hc.symm
  have hhex : NotHex (chr 'v' :: t) := notHex_cons rfl t
  have hh : h16 (chr 'v' :: t) = none := h16_of_notHex hhex
  have hcc : lit "::" (chr 'v' :: t) = none := lit_of_head_ne rfl (hhead (chr ':') (by decide))
  have hpre : between 0 1 (seq h16 (lit ":")) (chr 'v' :: t) = some (chr 'v' :: t) := by
    rw [between_zero_one, seq, hh]
    rfl
  simp only [ipV6Address, alt, seq, opt, times, hpre, hh, hcc]

/-- The two alternatives begin with different characters. -/
theorem bracketed_complete {a : Bytes} : alt ipV6Address ipVfuture a = some [] ↔
    IsIpV6 a ∨ IsIpVfuture a := by
  rw [← ipV6Address_complete, ← ipVfuture_complete]
  constructor
  · exact alt_eq_some
  · intro h
    rcases h with h | h
    · exact alt_eq_left h
    · obtain ⟨v, w, rfl, -⟩ := ipVfuture_complete.1 h
      exact (alt_eq_right (ipV6Address_v _)).trans h

/-! ### Hosts -/

/-- A registered name that is an IPv4 address if it begins with one. -/
def IsName (h : Bytes) : Prop := RegName h ∧ ((∃ p, p <+: h ∧ IsIpV4 p) → IsIpV4 h)

theorem IsIpV4.regName {s : Bytes} (h : IsIpV4 s) : RegName s := by
  have hoctet {w : Bytes} (hw : IsOctet w) : RegName w := by
    refine coded_of_free ?_ fun c hc => Or.inr (Or.inl (hw.digits c hc))
    intro hmem
    exact absurd (hw.digits _ hmem) (by decide)
  have hdot {w : Bytes} (hw : RegName w) : RegName (chr '.' :: w) :=
    .plain (by decide) (Or.inr (Or.inr (Or.inl (by decide)))) hw
  obtain ⟨a, b, c, d, ha, hb, hc, hd, rfl⟩ := h
  exact (hoctet ha).append (hdot ((hoctet hb).append (hdot ((hoctet hc).append (hdot (hoctet hd))))))

/-- The choice between an address and a name is made for the address wherever one
stands in front. -/
theorem name_complete {h : Bytes} : alt ipV4Address regName h = some [] ↔ IsName h := by
  rw [IsName, ← exists_ipV4Address, ← ipV4Address_complete]
  cases hv4 : ipV4Address h with
  | none =>
      rw [alt_eq_right hv4, regName_complete]
      simp
  | some r =>
      rw [alt_eq_left hv4]
      constructor
      · intro hr
        obtain rfl := Option.some.inj hr
        exact ⟨(ipV4Address_complete.1 hv4).regName, fun _ => rfl⟩
      · intro hname
        exact hname.2 ⟨r, rfl⟩

/-- A literal in front of anything is the literal by itself. -/
theorem ipLiteral_leaves {h t : Bytes} : ipLiteral (h ++ t) = some t ↔ IsLiteral h := by
  have hclose (a r : Bytes) : alt ipV6Address ipVfuture (a ++ chr ']' :: r) = some (chr ']' :: r) ↔
      IsIpV6 a ∨ IsIpVfuture a := by
    rw [← bracketed_complete]
    refine bracketed_local.leaves ?_
    intro c hc
    cases hc
    decide
  rw [ipLiteral, seq_assoc, litSeq_eq_some (d := '[') rfl (by decide)]
  constructor
  · intro hopen
    obtain ⟨w, hw, hin⟩ := hopen
    obtain ⟨r, halt, hlit⟩ := seq_eq_some_iff.1 hin
    obtain rfl : r = chr ']' :: t := lit_eq_some hlit
    obtain ⟨a, rfl, -⟩ := within_alt ipV6Address_within ipVfuture_within _ _ halt
    refine ⟨a, ?_, (hclose a t).1 halt⟩
    have htext : h ++ t = chr '[' :: (a ++ [chr ']']) ++ t := by simpa using hw
    exact List.append_cancel_right htext
  · intro hlit
    obtain ⟨a, rfl, ha⟩ := hlit
    refine ⟨a ++ chr ']' :: t, by simp, ?_⟩
    exact seq_eq_some_iff.2 ⟨_, (hclose a t).2 ha, lit_append (l := "]") (by decide) t⟩

/-- A literal, or a registered name or IPv4 address. -/
def IsHost (h : Bytes) : Prop := IsLiteral h ∨ IsName h

/-- Before a colon, or at the end, a host is the same as by itself. -/
theorem host_leaves {h t : Bytes} (ht : ∀ c ∈ t.head?, c = chr ':') :
    host (h ++ t) = some t ↔ IsHost h := by
  have hname : alt ipV4Address regName (h ++ t) = some t ↔ IsName h := by
    rw [← name_complete]
    refine name_local.leaves ?_
    intro c hc
    rw [ht c hc]
    decide
  rw [host, alt_assoc, IsHost, ← ipLiteral_leaves (t := t), ← hname]
  cases hl : ipLiteral (h ++ t) with
  | none => simp [alt_eq_right hl]
  | some r =>
      -- a name does not read the bracket
      have hno : alt ipV4Address regName (h ++ t) ≠ some t := by
        intro hread
        obtain ⟨w, hw, hfree⟩ := within_alt ipV4Address_within regName_within _ _ hread
        obtain rfl := List.append_cancel_right hw
        obtain ⟨inner, htext, -⟩ := ipLiteral_eq_some hl
        cases h with
        | nil => exact absurd (ht (chr '[') (by rw [← List.nil_append t, htext]; rfl)) (by decide)
        | cons c h =>
            obtain rfl : c = chr '[' := (List.cons.inj htext).1
            exact hfree _ List.mem_cons_self (by decide)
      rw [alt_eq_left hl]
      simp [hno]

theorem host_complete {h : Bytes} : host h = some [] ↔ IsHost h := by
  have hleaves := host_leaves (h := h) (t := []) (by simp)
  rwa [List.append_nil] at hleaves

/-! ### Authorities -/

/-- `[ userinfo "@" ] host [ ":" port ]` of the RFC, with the hosts as above. -/
def IsAuthority (a : Bytes) : Prop :=
  ∃ (u : Option Bytes) (h : Bytes) (p : Option Bytes), a = ended '@' u ++ h ++ led ':' p ∧
    (∀ w ∈ u, Coded UserChar w) ∧ IsHost h ∧ ∀ w ∈ p, ∀ c ∈ w, isDigit c.toNat = true

theorem port_complete {w : Bytes} : port w = some [] ↔ ∀ c ∈ w, isDigit c.toNat = true := by
  have hport : port w = some (w.dropWhile fun c => isDigit c.toNat) := star_satisfy _ w
  rw [hport, Option.some.injEq, List.dropWhile_eq_nil_iff]

theorem hostPort_complete {s : Bytes} : seq host (opt (seq (lit ":") port)) s = some [] ↔
    ∃ (h : Bytes) (p : Option Bytes), s = h ++ led ':' p ∧ IsHost h ∧
      ∀ w ∈ p, ∀ c ∈ w, isDigit c.toNat = true := by
  have hcolon {t : Bytes} (ht : opt (seq (lit ":") port) t = some []) :
      ∀ c ∈ t.head?, c = chr ':' := by
    intro c hc
    obtain ⟨p, rfl, -⟩ := (optLed_complete rfl (by decide)).1 ht
    exact led_head hc
  rw [seq_complete host_within fun w t ht => (host_leaves (hcolon ht)).trans host_complete.symm]
  constructor
  · intro h
    obtain ⟨w, t, rfl, hw, ht⟩ := h
    obtain ⟨p, rfl, hp⟩ := (optLed_complete rfl (by decide)).1 ht
    exact ⟨w, p, rfl, host_complete.1 hw, fun v hv => port_complete.1 (hp v hv)⟩
  · intro h
    obtain ⟨w, p, rfl, hw, hp⟩ := h
    exact ⟨w, _, rfl, host_complete.2 hw,
      (optLed_complete rfl (by decide)).2 ⟨p, rfl, fun v hv => port_complete.2 (hp v hv)⟩⟩

theorem userinfo_local : Local (· ∉ ascii "/?#[]@") userinfo := by
  have hP := local_compositional fun c => c ∉ ascii "/?#[]@"
  exact userinfo_of hP (nameChar_of hP (local_fewer unreserved_local (by decide))
    (local_fewer pctEncoded_local (by decide)) (local_fewer subDelims_local (by decide)))
    (local_lit (by decide))

/-- The userinfo in front of a text without an `@`. -/
theorem optUserinfo_leaves {w t : Bytes} (ht : chr '@' ∉ t) :
    opt (seq userinfo (lit "@")) (w ++ t) = some t ↔
      ∃ u : Option Bytes, w = ended '@' u ∧ ∀ v ∈ u, Coded UserChar v := by
  have hclose (v r : Bytes) : userinfo (v ++ chr '@' :: r) = some (chr '@' :: r) ↔
      Coded UserChar v := by
    rw [← userinfo_complete]
    refine userinfo_local.leaves ?_
    intro c hc
    cases hc
    decide
  constructor
  · intro h
    simp only [opt] at h
    cases hu : seq userinfo (lit "@") (w ++ t) with
    | none =>
        rw [hu] at h
        obtain rfl := List.append_left_eq_self.1 (Option.some.inj h)
        exact ⟨none, rfl, by simp⟩
    | some r =>
        rw [hu] at h
        obtain rfl := Option.some.inj h
        obtain ⟨r₁, hread, hat⟩ := seq_eq_some_iff.1 hu
        obtain rfl : r₁ = chr '@' :: r := lit_eq_some hat
        obtain ⟨v, hv, -⟩ := userinfo_within _ _ hread
        have htext : w ++ r = (v ++ [chr '@']) ++ r := by simpa using hv
        obtain rfl := List.append_cancel_right htext
        refine ⟨some v, rfl, ?_⟩
        intro v' hv'
        obtain rfl := Option.some.inj hv'
        rw [List.append_assoc] at hread
        exact (hclose v r).1 hread
  · intro h
    obtain ⟨u, rfl, hu⟩ := h
    cases u with
    | none =>
        have habsent := optUserinfo_absent ht (t := []) (by simp)
        rwa [List.append_nil] at habsent
    | some v =>
        have hread : seq userinfo (lit "@") (v ++ chr '@' :: t) = some t :=
          seq_eq_some_iff.2 ⟨_, (hclose v t).2 (hu v rfl), lit_append (l := "@") (by decide) t⟩
        have htext : ended '@' (some v) ++ t = v ++ chr '@' :: t := by simp [ended]
        rw [htext]
        simp only [opt, hread]

theorem at_notMem_hostPort {h : Bytes} {p : Option Bytes} (hh : IsHost h)
    (hp : ∀ w ∈ p, ∀ c ∈ w, isDigit c.toNat = true) : chr '@' ∉ h ++ led ':' p := by
  intro hmem
  rcases List.mem_append.1 hmem with hmem | hmem
  · exact (hostShape_of_host (host_complete.2 hh)).at_notMem hmem
  · cases p with
    | none => cases hmem
    | some w =>
        rcases List.mem_cons.1 hmem with hmem | hmem
        · exact absurd hmem (by decide)
        · exact absurd (hp w rfl _ hmem) (by decide)

theorem authority_complete {a : Bytes} : authority a = some [] ↔ IsAuthority a := by
  rw [authority, seq_assoc, seq_eq_some_iff]
  constructor
  · intro hread
    obtain ⟨t, hu, ht⟩ := hread
    obtain ⟨h, p, rfl, hh, hp⟩ := hostPort_complete.1 ht
    obtain ⟨u, rfl, -⟩ := optUserinfo_eq_some hu
    obtain ⟨u', hw, hu'⟩ := (optUserinfo_leaves (at_notMem_hostPort hh hp)).1 hu
    exact ⟨u', h, p, by rw [hw, List.append_assoc], hu', hh, hp⟩
  · intro ha
    obtain ⟨u, h, p, rfl, hu, hh, hp⟩ := ha
    refine ⟨h ++ led ':' p, ?_, hostPort_complete.2 ⟨h, p, rfl, hh, hp⟩⟩
    rw [List.append_assoc]
    exact (optUserinfo_leaves (at_notMem_hostPort hh hp)).2 ⟨u, rfl, hu⟩

/-! ### Paths and hierarchical parts -/

/-- A path that is empty or begins with a slash. -/
def IsAbempty (p : Bytes) : Prop := Coded PathChar p ∧ (p = [] ∨ p.head? = some (chr '/'))

/-- `"//" authority path-abempty` of the RFC. -/
def IsNetwork (t : Bytes) : Prop :=
  ∃ a p, t = ascii "//" ++ a ++ p ∧ IsAuthority a ∧ IsAbempty p

/-- `hier-part` of the RFC: behind an authority a path is empty or begins with a
slash, and without one it does not begin with two. -/
def IsHier (t : Bytes) : Prop := IsNetwork t ∨ Coded PathChar t ∧ ¬ascii "//" <+: t

theorem authority_local : Local (· ∉ ascii "/?#") authority := by
  have hP := local_compositional fun c => c ∉ ascii "/?#"
  have hu : Local (· ∉ ascii "/?#") userinfo :=
    userinfo_local.mono fun _ hc hmem => hc ((by decide : ascii "/?#" ⊆ ascii "/?#[]@") hmem)
  exact hP.seq (hP.seq (hP.opt (hP.seq hu (local_lit (by decide)))) host_local)
    (hP.opt (hP.seq (local_lit (by decide))
      (hP.star (consumes_satisfy _) (local_fewer digit_local (by decide)))))

theorem network_complete {r : Bytes} : seq authority pathAbempty r = some [] ↔
    ∃ a p, r = a ++ p ∧ IsAuthority a ∧ IsAbempty p := by
  have hslash : ∀ t, pathAbempty t = some [] → ∀ c ∈ t.head?, ¬c ∉ ascii "/?#" := by
    intro t ht c hc
    rcases (pathAbempty_complete.1 ht).2 with rfl | hhead
    · cases hc
    · obtain rfl : chr '/' = c := Option.some.inj (hhead.symm.trans hc)
      decide
  rw [seq_complete authority_within fun w t ht => authority_local.leaves (hslash t ht)]
  simp only [authority_complete, pathAbempty_complete, IsAbempty]

/-- Of a coded text every character but those of triplets is of the alphabet. -/
theorem coded_cons {q : UInt8 → Prop} {c : UInt8} {w : Bytes} (hc : c ≠ chr '%') :
    Coded q (c :: w) ↔ q c ∧ Coded q w := by
  constructor
  · intro h
    generalize hs : c :: w = s at h
    cases h with
    | nil => cases hs
    | plain _ hq hw =>
        obtain ⟨rfl, rfl⟩ := List.cons.inj hs
        exact ⟨hq, hw⟩
    | pct _ _ _ => exact absurd (List.cons.inj hs).1 hc
  · intro h
    exact .plain hc h.1 h.2

theorem pathAbsolute_complete {s : Bytes} : pathAbsolute s = some [] ↔
    Coded PathChar s ∧ s.head? = some (chr '/') ∧ ¬ascii "//" <+: s := by
  have hslash : chr '/' ≠ chr '%' := by decide
  have hopt {w : Bytes} : opt pathRootless w = some [] ↔
      Coded PathChar w ∧ w.head? ≠ some (chr '/') := by
    simp only [opt]
    cases hw : pathRootless w with
    | none =>
        constructor
        · intro h
          obtain rfl := Option.some.inj h
          exact ⟨.nil, by simp⟩
        · intro h
          by_cases hnil : w = []
          · rw [hnil]
          · rw [pathRootless_complete.2 ⟨h.1, hnil, h.2⟩] at hw
            cases hw
    | some r =>
        constructor
        · intro h
          obtain rfl := Option.some.inj h
          obtain ⟨hcoded, -, hhead⟩ := pathRootless_complete.1 hw
          exact ⟨hcoded, hhead⟩
        · intro h
          have hne : w ≠ [] := by
            intro hnil
            rw [hnil] at hw
            cases hw
          have hall := pathRootless_complete.2 ⟨h.1, hne, h.2⟩
          rw [hw] at hall
          exact hall
  rw [pathAbsolute_eq, ← pathRootless_eq, ← lit_slash, litSeq_eq_some (d := '/') rfl (by decide)]
  constructor
  · intro h
    obtain ⟨w, rfl, hw⟩ := h
    obtain ⟨hcoded, hhead⟩ := hopt.1 hw
    refine ⟨(coded_cons hslash).2 ⟨Or.inr rfl, hcoded⟩, rfl, ?_⟩
    intro hslashes
    obtain ⟨r, hr⟩ := hslashes
    obtain rfl : chr '/' :: r = w := (List.cons.inj hr).2
    exact hhead rfl
  · intro h
    obtain ⟨hcoded, hhead, hno⟩ := h
    cases s with
    | nil => cases hhead
    | cons c w =>
        obtain rfl : c = chr '/' := Option.some.inj hhead
        refine ⟨w, rfl, hopt.2 ⟨((coded_cons hslash).1 hcoded).2, ?_⟩⟩
        intro hw
        cases w with
        | nil => cases hw
        | cons d r =>
            obtain rfl : d = chr '/' := Option.some.inj hw
            exact hno ⟨r, rfl⟩

theorem pathAbsolute_none {s : Bytes} (h : s.head? ≠ some (chr '/')) : pathAbsolute s = none := by
  rw [pathAbsolute_eq, ← lit_slash]
  simp only [seq, lit_of_head_ne (l := "/") rfl h]

/-- The paths without an authority: each is read by the alternative for its first
character, and a path without a first segment satisfies every condition on it. -/
theorem bare_complete {t : Bytes} {p : Peg UInt8} {P : Prop} (hnone : p [] = none)
    (hp : p t = some [] ↔ (Coded PathChar t ∧ t ≠ [] ∧ t.head? ≠ some (chr '/')) ∧ P)
    (hP : t = [] ∨ t.head? = some (chr '/') → P) (ht : ¬ascii "//" <+: t) :
    alt pathAbsolute (alt p pathEmpty) t = some [] ↔ Coded PathChar t ∧ P := by
  constructor
  · intro h
    rcases alt_eq_some h with h | h
    · obtain ⟨hcoded, hslash, -⟩ := pathAbsolute_complete.1 h
      exact ⟨hcoded, hP (Or.inr hslash)⟩
    · rcases alt_eq_some h with h | h
      · obtain ⟨⟨hcoded, -⟩, hfirst⟩ := hp.1 h
        exact ⟨hcoded, hfirst⟩
      · obtain rfl : t = [] := Option.some.inj h
        exact ⟨.nil, hP (Or.inl rfl)⟩
  · intro h
    obtain ⟨hcoded, hfirst⟩ := h
    by_cases hslash : t.head? = some (chr '/')
    · exact alt_eq_left (pathAbsolute_complete.2 ⟨hcoded, hslash, ht⟩)
    · refine (alt_eq_right (pathAbsolute_none hslash)).trans ?_
      by_cases hnil : t = []
      · rw [hnil]
        exact alt_eq_right hnone
      · exact alt_eq_left (hp.2 ⟨⟨hcoded, hnil, hslash⟩, hfirst⟩)

/-- Behind two slashes the first alternative is the only one. -/
theorem network_or {t : Bytes} {p : Peg UInt8} {P : Prop}
    (hp : ¬ascii "//" <+: t → (p t = some [] ↔ P)) :
    alt (seq (seq (lit "//") authority) pathAbempty) p t = some [] ↔
      IsNetwork t ∨ P ∧ ¬ascii "//" <+: t := by
  rw [seq_assoc]
  cases hl : lit "//" t with
  | some r =>
      obtain rfl := lit_eq_some hl
      obtain ⟨x, hx⟩ : ∃ x, seq authority pathAbempty r = some x :=
        total_seq authority_total (total_star _) r
      have hfirst : seq (lit "//") (seq authority pathAbempty) (ascii "//" ++ r) = some x :=
        seq_eq_some_iff.2 ⟨r, hl, hx⟩
      have hnet : IsNetwork (ascii "//" ++ r) ↔ seq authority pathAbempty r = some [] := by
        rw [network_complete, IsNetwork]
        simp only [List.append_assoc, List.append_cancel_left_eq]
      rw [alt_eq_left hfirst, hnet, hx]
      simp
  | none =>
      have hno : ¬ascii "//" <+: t := by
        intro hslashes
        obtain ⟨r, rfl⟩ := hslashes
        rw [lit_append (by decide)] at hl
        cases hl
      have hfirst : seq (lit "//") (seq authority pathAbempty) t = none := by
        simp only [seq, hl]
      have hnet : ¬IsNetwork t := by
        intro h
        obtain ⟨a, p, rfl, -⟩ := h
        exact hno ⟨a ++ p, (List.append_assoc _ _ _).symm⟩
      rw [alt_eq_right hfirst, hp hno]
      simp [hno, hnet]

theorem hierPart_complete {t : Bytes} : hierPart t = some [] ↔ IsHier t := by
  rw [hierPart, alt_assoc, alt_assoc, IsHier, ← and_true (Coded PathChar t)]
  exact network_or (bare_complete rfl (by rw [pathRootless_complete, and_true]) fun _ => trivial)

/-! ### What is in front of a query and a fragment -/

/-- What may stand behind a hierarchical part begins where that has to stop. -/
theorem IsTail.head {t : Bytes} (h : IsTail t) : ∀ c ∈ t.head?, ¬c ∉ ascii "?#" := by
  obtain ⟨q, f, rfl, -⟩ := h
  intro c hc
  cases q with
  | some w =>
      obtain rfl : chr '?' = c := Option.some.inj hc
      decide
  | none =>
      obtain rfl := led_head (o := f) hc
      decide

theorem tail_complete {p : Peg UInt8} {L : Bytes → Prop} {s : Bytes}
    (hlocal : Local (· ∉ ascii "?#") p) (hwithin : Within p (· ∉ ascii "?#"))
    (hp : ∀ t, p t = some [] ↔ L t) :
    seq p queryFragment s = some [] ↔ ∃ t r, s = t ++ r ∧ L t ∧ IsTail r := by
  rw [seq_complete hwithin fun w t ht => hlocal.leaves (queryFragment_complete.1 ht).head]
  simp only [hp, queryFragment_complete]

theorem local_below {p : Peg UInt8} (h : Local (· ∉ ascii "/?#") p) : Local (· ∉ ascii "?#") p :=
  local_fewer h (by decide)

theorem slash_local : Local (· ∉ ascii "?#") (charOf "/" : Peg UInt8) :=
  local_satisfy fun c hc => charSets_free ("/", "?#") (by simp [charSets]) c hc

theorem pathAbempty_local : Local (· ∉ ascii "?#") pathAbempty :=
  pathAbempty_of (local_compositional _)
    (segment_of (local_compositional _) (local_below pchar_local)) slash_local

theorem network_local : Local (· ∉ ascii "?#") (seq authority pathAbempty) :=
  (local_compositional _).seq (local_below authority_local) pathAbempty_local

theorem network_within : Within (seq authority pathAbempty) (· ∉ ascii "?#") :=
  (within_compositional _).seq (within_fewer authority_within (by decide)) pathAbempty_within

theorem slashes_local : Local (· ∉ ascii "?#") (seq (seq (lit "//") authority) pathAbempty) := by
  rw [seq_assoc]
  exact (local_compositional _).seq (local_lit (by decide)) network_local

theorem slashes_within : Within (seq (seq (lit "//") authority) pathAbempty) (· ∉ ascii "?#") := by
  rw [seq_assoc]
  exact (within_compositional _).seq (within_lit (by decide)) network_within

theorem pathAbsolute_local : Local (· ∉ ascii "?#") pathAbsolute := by
  have hP := local_compositional fun c => c ∉ ascii "?#"
  rw [pathAbsolute_eq]
  exact hP.seq slash_local (hP.opt (hP.seq (hP.plus pchar_consumes (local_below pchar_local))
    pathAbempty_local))

theorem hierPart_local : Local (· ∉ ascii "?#") hierPart := by
  have hP := local_compositional fun c => c ∉ ascii "?#"
  have hrootless : Local (· ∉ ascii "?#") pathRootless := by
    rw [pathRootless_eq]
    exact hP.seq (hP.plus pchar_consumes (local_below pchar_local)) pathAbempty_local
  exact hP.alt (hP.alt (hP.alt slashes_local pathAbsolute_local) hrootless) hP.empty

/-! ### URIs -/

/-- A scheme as the rule has it, and its colon. -/
theorem schemeColon_complete {p : Peg UInt8} {s : Bytes} :
    seq (seq scheme (lit ":")) p s = some [] ↔
      ∃ w r, s = w ++ chr ':' :: r ∧ (IsScheme w ∨ HasComma w) ∧ p r = some [] := by
  rw [seq_assoc]
  have hleaves : ∀ w t, seq (lit ":") p t = some [] →
      (scheme (w ++ t) = some t ↔ scheme w = some []) := by
    intro w t ht
    obtain ⟨r, rfl, -⟩ := (litSeq_eq_some (d := ':') rfl (by decide)).1 ht
    exact scheme_before_colon
  rw [seq_complete scheme_within hleaves]
  constructor
  · intro h
    obtain ⟨w, t, rfl, hw, ht⟩ := h
    obtain ⟨r, rfl, hr⟩ := (litSeq_eq_some (d := ':') rfl (by decide)).1 ht
    exact ⟨w, r, rfl, scheme_complete.1 hw, hr⟩
  · intro h
    obtain ⟨w, r, rfl, hw, hr⟩ := h
    exact ⟨w, _, rfl, scheme_complete.2 hw, (litSeq_eq_some (d := ':') rfl (by decide)).2 ⟨r, rfl, hr⟩⟩

/-- The URIs that `uri` reads, by their texts: as the RFC has them, but for the
schemes, the names and the literals. -/
def IsUri (s : Bytes) : Prop :=
  ∃ w t r, s = w ++ chr ':' :: (t ++ r) ∧ (IsScheme w ∨ HasComma w) ∧ IsHier t ∧ IsTail r

/-- `uri` reads a text to its end exactly if the text is made of a scheme, a
hierarchical part, a query and a fragment: its choices and repetitions miss no way
to take a text apart. -/
theorem uri_complete (s : Bytes) : uri s = some [] ↔ IsUri s := by
  rw [uri_eq, schemeColon_complete]
  constructor
  · intro h
    obtain ⟨w, r, rfl, hw, hr⟩ := h
    obtain ⟨t, r, rfl, ht, hr⟩ :=
      (tail_complete hierPart_local hierPart_within fun _ => hierPart_complete).1 hr
    exact ⟨w, t, r, rfl, hw, ht, hr⟩
  · intro h
    obtain ⟨w, t, r, rfl, hw, ht, hr⟩ := h
    exact ⟨w, t ++ r, rfl, hw,
      (tail_complete hierPart_local hierPart_within fun _ => hierPart_complete).2
        ⟨t, r, rfl, ht, hr⟩⟩

/-! ### What `parse_uri` accepts -/

theorem knownHierPart_complete {t : Bytes} : knownHierPart t = some [] ↔ IsNetwork t ∨ t = [] := by
  have hempty : ¬ascii "//" <+: t → (pathEmpty t = some [] ↔ t = []) :=
    fun _ => Option.some.injEq t [] ▸ Iff.rfl
  rw [knownHierPart, network_or hempty]
  constructor
  · exact fun h => h.imp_right And.left
  · intro h
    rcases h with h | rfl
    · exact Or.inl h
    · exact Or.inr ⟨rfl, by decide⟩

/-- The texts that `parse_complete` accepts. -/
def IsComplete (s : Bytes) : Prop :=
  ∃ w t r, s = w ++ chr ':' :: (t ++ r) ∧ (IsScheme w ∨ HasComma w) ∧ (IsNetwork t ∨ t = []) ∧
    IsTail r

/-- The texts that `parse_authority` accepts. -/
def IsAuthorityForm (s : Bytes) : Prop :=
  ∃ a p r, s = a ++ p ++ r ∧ IsAuthority a ∧ IsAbempty p ∧ IsTail r

theorem knownHierPart_rest {s : Bytes} : seq knownHierPart queryFragment s = some [] ↔
    ∃ t r, s = t ++ r ∧ (IsNetwork t ∨ t = []) ∧ IsTail r := by
  exact tail_complete ((local_compositional _).alt slashes_local (local_compositional _).empty)
    ((within_compositional _).alt slashes_within (within_compositional _).empty)
    fun _ => knownHierPart_complete

theorem parseComplete_rule {s : Bytes} {parts : UriParts} : (parseComplete s parts).1 = true ↔
    seq (seq scheme (lit ":")) (seq knownHierPart queryFragment) s = some [] := by
  cases hs : seq scheme (lit ":") s with
  | none =>
      have hno : seq (seq scheme (lit ":")) (seq knownHierPart queryFragment) s = none := by
        rw [seq, hs]
      rw [parseComplete_of_none hs, hno]
      simp
  | some rest =>
      obtain ⟨e, b, p, he, hpc, hb, -⟩ := parseComplete_spec hs parts
      have hread : seq (seq scheme (lit ":")) (seq knownHierPart queryFragment) s =
          queryFragment e := by
        rw [seq, hs]
        simp only [seq, he]
      rw [hpc, hread]
      exact hb

theorem parseAuthority_rule {s : Bytes} {parts : UriParts} : (parseAuthority s parts).1 = true ↔
    seq (seq authority pathAbempty) queryFragment s = some [] := by
  obtain ⟨u, hu⟩ := total_opt (seq userinfo (lit "@")) s
  obtain ⟨c, hc⟩ := host_total u
  have hhost (v : View) : thenCapture (opt (seq userinfo (lit "@"))) (raw host) s v =
      (some c, slice u c) := by
    simp only [thenCapture, hu, raw_of_some hc]
  obtain ⟨d, e, vq, vf, b, hd, he, hpp, hb⟩ :=
    parsePortPath_spec c { parts with host := slice u c }
  have ha : authority s = some d := seq_eq_some_iff.2 ⟨c, seq_eq_some_iff.2 ⟨u, hu, hc⟩, hd⟩
  have hread : seq (seq authority pathAbempty) queryFragment s = queryFragment e := by
    simp only [seq, ha, he]
  have hparse : (parseAuthority s parts).1 = b := by
    simp only [parseAuthority, hhost, hpp]
  rw [hparse, hread]
  exact hb

/-- What the two drivers behind `parse_uri` accept, by the texts and whatever the
parts hold before: a scheme and a colon before an authority or nothing, and an
authority by itself, each with a query and a fragment behind it. -/
theorem parseUri_accepts (s : Bytes) (parts : UriParts) :
    ((parseComplete s parts).1 = true ↔ IsComplete s) ∧
      ((parseAuthority s parts).1 = true ↔ IsAuthorityForm s) := by
  refine ⟨?_, ?_⟩
  · rw [parseComplete_rule, schemeColon_complete]
    constructor
    · intro h
      obtain ⟨w, r, rfl, hw, hr⟩ := h
      obtain ⟨t, r, rfl, ht, hr⟩ := knownHierPart_rest.1 hr
      exact ⟨w, t, r, rfl, hw, ht, hr⟩
    · intro h
      obtain ⟨w, t, r, rfl, hw, ht, hr⟩ := h
      exact ⟨w, t ++ r, rfl, hw, knownHierPart_rest.2 ⟨t, r, rfl, ht, hr⟩⟩
  · rw [parseAuthority_rule, tail_complete network_local network_within fun _ => network_complete]
    constructor
    · intro h
      obtain ⟨t, r, rfl, ⟨a, p, rfl, ha, hp⟩, hr⟩ := h
      exact ⟨a, p, r, rfl, ha, hp, hr⟩
    · intro h
      obtain ⟨a, p, r, rfl, ha, hp, hr⟩ := h
      exact ⟨a ++ p, r, rfl, ⟨a, p, rfl, ha, hp⟩, hr⟩

/-! ### Relative references -/

/-- The first segment of a path holds no colon. -/
def NoColonFirst (t : Bytes) : Prop := chr ':' ∉ t.takeWhile (· ≠ chr '/')

/-- What stands in a first segment without a colon. -/
theorem ncChar_plain {c : UInt8} (hpct : c ≠ chr '%') (hc : isPchar c = true)
    (hcolon : c ≠ chr ':') (r : Bytes) : ncChar (c :: r) = some r := by
  have hname : nameChar (c :: r) = if isNameChar c then some r else none := nameChar_plain hpct r
  by_cases hn : isNameChar c = true
  · exact alt_eq_left (hname.trans (if_pos hn))
  · have hat : c = chr '@' := by
      have hmarks : codes ":@" = [58, 64] := rfl
      have hset : charSet (codes ":@") c.toNat = true := by
        have hor : (isNameChar c || charSet (codes ":@") c.toNat) = true := hc
        simpa [hn] using hor
      rw [hmarks] at hset
      rw [Ne, ← UInt8.toNat_inj] at hcolon
      rw [← UInt8.toNat_inj]
      simp only [charSet, Bool.or_eq_true, beq_iff_eq] at hset
      simp [chr] at hcolon ⊢
      omega
    rw [hat] at hname ⊢
    exact alt_eq_right (hname.trans (if_neg (by decide)))

/-- The repetition of such characters goes to the first slash. -/
theorem star_ncChar {t : Bytes} (h : Coded PathChar t) (hcolon : NoColonFirst t) :
    star ncChar t = some (t.dropWhile (· ≠ chr '/')) ∧
      Coded PathChar (t.dropWhile (· ≠ chr '/')) := by
  induction h with
  | nil => exact ⟨star_of_none ncChar_consumes ncChar_consumes.nil, .nil⟩
  | @plain c w hpct hc hw ih =>
      by_cases hslash : c = chr '/'
      · subst hslash
        have hstop : ncChar (chr '/' :: w) = none := by
          refine ncChar_consumes.eq_none ncChar_within ?_
          intro d hd hfree
          cases hd
          exact hfree (by decide)
        exact ⟨star_of_none ncChar_consumes hstop, .plain hpct hc hw⟩
      · have htake : (c :: w).takeWhile (· ≠ chr '/') = c :: w.takeWhile (· ≠ chr '/') :=
          List.takeWhile_cons_of_pos (by simpa using hslash)
        have hdrop : (c :: w).dropWhile (· ≠ chr '/') = w.dropWhile (· ≠ chr '/') :=
          List.dropWhile_cons_of_pos (by simpa using hslash)
        rw [NoColonFirst, htake, List.mem_cons, not_or] at hcolon
        have hone : ncChar (c :: w) = some w :=
          ncChar_plain hpct (hc.resolve_right hslash) (Ne.symm hcolon.1) w
        rw [hdrop, star_of_some ncChar_consumes hone]
        exact ih hcolon.2
  | @pct a b w ha hb hw ih =>
      have hslash {d : UInt8} (hd : isXdigit d.toNat = true) : d ≠ chr '/' := by
        intro heq
        rw [heq] at hd
        exact absurd hd (by decide)
      have hunit : ∀ d ∈ triplet a b, decide (d ≠ chr '/') = true := by
        intro d hd
        simp only [triplet, List.mem_cons, List.not_mem_nil, or_false] at hd
        rcases hd with rfl | rfl | rfl
        · decide
        · simpa using hslash ha
        · simpa using hslash hb
      have htake : (triplet a b ++ w).takeWhile (· ≠ chr '/') =
          triplet a b ++ w.takeWhile (· ≠ chr '/') := List.takeWhile_append_of_pos hunit
      have hdrop : (triplet a b ++ w).dropWhile (· ≠ chr '/') = w.dropWhile (· ≠ chr '/') :=
        List.dropWhile_append_of_pos hunit
      rw [NoColonFirst, htake, List.mem_append, not_or] at hcolon
      have hone : ncChar (triplet a b ++ w) = some w := alt_eq_left (nameChar_triplet ha hb w)
      rw [hdrop, star_of_some ncChar_consumes hone]
      exact ih hcolon.2

theorem pathNoscheme_complete {t : Bytes} : pathNoscheme t = some [] ↔
    Coded PathChar t ∧ t ≠ [] ∧ t.head? ≠ some (chr '/') ∧ NoColonFirst t := by
  constructor
  · intro h
    obtain ⟨hcoded, hne, hhead⟩ := pathRootless_complete.1 (pathNoscheme_rootless h)
    refine ⟨hcoded, hne, hhead, ?_⟩
    rw [pathNoscheme_eq] at h
    obtain ⟨r, hsegment, hrest⟩ := seq_eq_some_iff.1 h
    have hwithin : Within segmentNzNc (· ∉ ascii ":/?#") :=
      (within_compositional _).plus ncChar_consumes ncChar_within
    obtain ⟨w, rfl, hfree⟩ := hwithin _ _ hsegment
    have hw : ∀ c ∈ w, decide (c ≠ chr '/') = true := by
      intro c hc
      refine decide_eq_true ?_
      intro heq
      exact hfree c hc (by rw [heq]; decide)
    have hr : r.takeWhile (· ≠ chr '/') = [] := by
      rcases (pathAbempty_complete.1 hrest).2 with rfl | hslash
      · rfl
      · cases r with
        | nil => cases hslash
        | cons c r =>
            obtain rfl : c = chr '/' := Option.some.inj hslash
            rfl
    rw [NoColonFirst, List.takeWhile_append_of_pos hw, hr, List.append_nil]
    intro hmem
    exact hfree _ hmem (by decide)
  · intro h
    obtain ⟨hcoded, hne, hhead, hcolon⟩ := h
    obtain ⟨hstar, hrest⟩ := star_ncChar hcoded hcolon
    have hstart : t.dropWhile (· ≠ chr '/') = [] ∨
        (t.dropWhile (· ≠ chr '/')).head? = some (chr '/') := by
      cases hd : t.dropWhile (· ≠ chr '/') with
      | nil => exact Or.inl rfl
      | cons c r =>
          have hc := List.head?_dropWhile_not (fun c => decide (c ≠ chr '/')) t
          rw [hd] at hc
          exact Or.inr (congrArg some (by simpa using hc))
    rw [pathNoscheme_eq]
    refine seq_eq_some_iff.2 ⟨_, ?_, pathAbempty_complete.2 ⟨hrest, hstart⟩⟩
    cases hone : ncChar t with
    | none =>
        -- then the repetition reads nothing, and the path is empty or begins with a slash
        rw [star_of_none ncChar_consumes hone] at hstar
        rw [← Option.some.inj hstar] at hstart
        exact absurd hhead (by simpa [hne] using hstart)
    | some r =>
        rw [star_of_some ncChar_consumes hone] at hstar
        exact seq_eq_some_iff.2 ⟨r, hone, hstar⟩

/-- `relative-part` of the RFC: a path without an authority has no colon in its first
segment. -/
def IsRelative (t : Bytes) : Prop :=
  IsNetwork t ∨ (Coded PathChar t ∧ NoColonFirst t) ∧ ¬ascii "//" <+: t

theorem relativePart_complete {t : Bytes} : relativePart t = some [] ↔ IsRelative t := by
  have hfirst : t = [] ∨ t.head? = some (chr '/') → NoColonFirst t := by
    intro h
    have htake : t.takeWhile (· ≠ chr '/') = [] := by
      cases t with
      | nil => rfl
      | cons c t =>
          obtain rfl : c = chr '/' := by simpa using h
          rfl
    rw [NoColonFirst, htake]
    exact List.not_mem_nil
  rw [relativePart, alt_assoc, alt_assoc]
  refine network_or (bare_complete rfl ?_ hfirst)
  rw [pathNoscheme_complete, and_assoc, and_assoc]

theorem ncChar_local : Local (· ∉ ascii "?#") ncChar := by
  have hP := local_compositional fun c => c ∉ ascii "?#"
  refine hP.alt ?_ (local_lit (by decide))
  exact nameChar_of hP (local_fewer unreserved_local (by decide))
    (local_fewer pctEncoded_local (by decide)) (local_fewer subDelims_local (by decide))

theorem relativePart_local : Local (· ∉ ascii "?#") relativePart := by
  have hP := local_compositional fun c => c ∉ ascii "?#"
  have hnoscheme : Local (· ∉ ascii "?#") pathNoscheme := by
    rw [pathNoscheme_eq]
    exact hP.seq (hP.plus ncChar_consumes ncChar_local) pathAbempty_local
  exact hP.alt (hP.alt (hP.alt slashes_local pathAbsolute_local) hnoscheme) hP.empty

theorem relativePart_within : Within relativePart (· ∉ ascii "?#") := by
  have hP := within_compositional fun c => c ∉ ascii "?#"
  have habsolute : Within pathAbsolute (· ∉ ascii "?#") := by
    rw [pathAbsolute_eq]
    exact hP.seq (within_charOf (by simp [charSets]))
      (hP.opt (hP.seq (hP.plus pchar_consumes (within_fewer pchar_within (by decide)))
        pathAbempty_within))
  have hnoscheme : Within pathNoscheme (· ∉ ascii "?#") := by
    rw [pathNoscheme_eq]
    exact hP.seq (hP.plus ncChar_consumes (within_fewer ncChar_within (by decide)))
      pathAbempty_within
  exact hP.alt (hP.alt (hP.alt slashes_within habsolute) hnoscheme) hP.empty

/-- The relative references that `relative_ref` reads, by their texts. -/
def IsRelativeRef (s : Bytes) : Prop := ∃ t r, s = t ++ r ∧ IsRelative t ∧ IsTail r

/-- `relative_ref` reads a text to its end exactly if the text is made of a relative
part, a query and a fragment. -/
theorem relativeRef_complete (s : Bytes) : relativeRef s = some [] ↔ IsRelativeRef s := by
  rw [relativeRef, seq_assoc]
  exact tail_complete relativePart_local relativePart_within fun _ => relativePart_complete

end Foxy.Uri
