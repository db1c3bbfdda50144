import Foxy.Uri.Rules

/-!
# Foxy.Uri.Compose

What every combinator keeps (`Peg.Compositional`) holds of a rule as soon as it
holds of the rules and terminals the rule is built from. There is one lemma for
each rule that the splitter runs; alphabets, percent triplets and locality are
read off the grammar through them, so that a change to a rule is met here once.

A repetition is only as good as its body: the bodies consume something.
-/

namespace Foxy.Uri

open Peg X3

/-! ### Bodies of repetitions -/

theorem pctEncoded_consumes : Consumes pctEncoded :=
  consumes_seq (consumes_seq (lit_consumes (by decide)) (consumes_satisfy _)) (consumes_satisfy _)

theorem unreserved_consumes : Consumes unreserved :=
  takes_alt (takes_alt (consumes_satisfy _) (consumes_satisfy _)) (consumes_satisfy _)

/-- The characters of a registered name. -/
def nameChar : Peg UInt8 := alt (alt unreserved pctEncoded) subDelims

theorem nameChar_consumes : Consumes nameChar :=
  takes_alt (takes_alt unreserved_consumes pctEncoded_consumes) (consumes_satisfy _)

theorem pchar_consumes : Consumes pchar := takes_alt nameChar_consumes (consumes_satisfy _)

theorem queryChar_consumes : Consumes (alt pchar (charOf "/?")) :=
  takes_alt pchar_consumes (consumes_satisfy _)

theorem slashSegment_consumes : Consumes (seq (charOf "/") segment) :=
  consumes_seq (consumes_satisfy _)
    (takes_star closed_any (pchar_consumes.mono fun _ _ => trivial))

theorem userinfoChar_consumes : Consumes (alt nameChar (lit ":")) :=
  takes_alt nameChar_consumes (lit_consumes (by decide))

theorem ipVfutureChar_consumes : Consumes (alt (alt unreserved subDelims) (lit ":")) :=
  takes_alt (takes_alt unreserved_consumes (consumes_satisfy _)) (lit_consumes (by decide))

theorem schemeChar_consumes : Consumes (alt (alt alpha digit) (charOf "+-.")) :=
  takes_alt (takes_alt (consumes_satisfy _) (consumes_satisfy _)) (consumes_satisfy _)

theorem scheme_consumes : Consumes scheme :=
  consumes_seq (consumes_satisfy _)
    (takes_star closed_any (schemeChar_consumes.mono fun _ _ => trivial))

/-! ### Rule by rule -/

section
variable {P : Peg UInt8 → Prop} (hP : Compositional P)
include hP

theorem unreserved_of (ha : P alpha) (hd : P digit) (hs : P (charOf "-._~")) : P unreserved :=
  hP.alt (hP.alt ha hd) hs

theorem pctEncoded_of (hpct : P (lit "%")) (hx : P xdigit) : P pctEncoded :=
  hP.seq (hP.seq hpct hx) hx

theorem nameChar_of (hu : P unreserved) (hpct : P pctEncoded) (hs : P subDelims) : P nameChar :=
  hP.alt (hP.alt hu hpct) hs

theorem pchar_of (hn : P nameChar) (hs : P (charOf ":@")) : P pchar := hP.alt hn hs

theorem query_of (hp : P pchar) (hs : P (charOf "/?")) : P query :=
  hP.star queryChar_consumes (hP.alt hp hs)

theorem segment_of (hp : P pchar) : P segment := hP.star pchar_consumes hp

theorem pathAbempty_of (hseg : P segment) (hs : P (charOf "/")) : P pathAbempty :=
  hP.star slashSegment_consumes (hP.seq hs hseg)

theorem regName_of (hn : P nameChar) : P regName := hP.star nameChar_consumes hn

theorem userinfo_of (hn : P nameChar) (hc : P (lit ":")) : P userinfo :=
  hP.star userinfoChar_consumes (hP.alt hn hc)

theorem decOctet_of (hd : P digit) (hl : ∀ l ∈ ["25", "2", "1"], P (lit l))
    (hs : ∀ set ∈ ["0-5", "0-4", "1-9"], P (charOf set)) : P decOctet := by
  refine hP.alt (hP.alt (hP.alt (hP.alt (hP.seq ?_ ?_) (hP.seq (hP.seq ?_ ?_) hd))
    (hP.seq ?_ (hP.times hd 2))) (hP.seq ?_ hd)) hd
  · exact hl "25" (by simp)
  · exact hs "0-5" (by simp)
  · exact hl "2" (by simp)
  · exact hs "0-4" (by simp)
  · exact hl "1" (by simp)
  · exact hs "1-9" (by simp)

theorem ipV4Address_of (ho : P decOctet) (hdot : P (lit ".")) : P ipV4Address :=
  hP.seq (hP.seq (hP.seq (hP.seq (hP.seq (hP.seq ho hdot) ho) hdot) ho) hdot) ho

theorem h16_of (hx : P xdigit) : P h16 := hP.between 1 4 hx

theorem ls32_of (hh : P h16) (hc : P (lit ":")) (h4 : P ipV4Address) : P ls32 :=
  hP.alt (hP.seq (hP.seq hh hc) hh) h4

/-- All nine alternatives are built from `h16`, `ls32` and colons. -/
theorem ipV6Address_of (hh : P h16) (hc : P (lit ":")) (hcc : P (lit "::")) (hl : P ls32) :
    P ipV6Address := by
  have hgroup (n : Nat) : P (times n (seq h16 (lit ":"))) := hP.times (hP.seq hh hc) n
  have hlead (n : Nat) : P (opt (seq h16 (between 0 n (seq (lit ":") h16)))) :=
    hP.opt (hP.seq hh (hP.between 0 n (hP.seq hc hh)))
  unfold ipV6Address
  refine hP.alt (hP.alt (hP.alt (hP.alt (hP.alt (hP.alt (hP.alt (hP.alt ?_ ?_) ?_) ?_) ?_) ?_) ?_)
    ?_) ?_
  · exact hP.seq (hgroup 6) hl
  · exact hP.seq (hP.seq hcc (hgroup 5)) hl
  · exact hP.seq (hP.seq (hP.seq (hP.opt hh) hcc) (hgroup 4)) hl
  · exact hP.seq (hP.seq (hP.seq
      (hP.opt (hP.seq (hP.between 0 1 (hP.seq hh hc)) hh)) hcc) (hgroup 3)) hl
  · exact hP.seq (hP.seq (hlead 2) hcc) (hP.seq hl (hP.times (hP.seq hc hh) 2))
  · exact hP.seq (hP.seq (hP.seq (hP.seq (hlead 3) hcc) hh) hc) hl
  · exact hP.seq (hP.seq (hlead 4) hcc) hl
  · exact hP.seq (hP.seq (hlead 5) hcc) hh
  · exact hP.seq (hlead 6) hcc

theorem ipVfuture_of (hv : P (lit "v")) (hx : P xdigit) (hdot : P (lit ".")) (hu : P unreserved)
    (hs : P subDelims) (hc : P (lit ":")) : P ipVfuture :=
  hP.seq (hP.seq (hP.seq hv (hP.plus (consumes_satisfy _) hx)) hdot)
    (hP.plus ipVfutureChar_consumes (hP.alt (hP.alt hu hs) hc))

theorem ipLiteral_of (hopen : P (lit "[")) (h6 : P ipV6Address) (hf : P ipVfuture)
    (hclose : P (lit "]")) : P ipLiteral :=
  hP.seq (hP.seq hopen (hP.alt h6 hf)) hclose

theorem host_of (hl : P ipLiteral) (h4 : P ipV4Address) (hr : P regName) : P host :=
  hP.alt (hP.alt hl h4) hr

/-- From the terminals to the host: its literals and its character sets, and the
triplet as a terminal of its own. -/
theorem host_of_terminals (ha : P alpha) (hd : P digit) (hx : P xdigit) (hpct : P pctEncoded)
    (hl : ∀ l ∈ ["25", "2", "1", ".", ":", "::", "v", "[", "]"], P (lit l))
    (hs : ∀ set ∈ ["-._~", "!$&'()*+,;=", "0-5", "0-4", "1-9"], P (charOf set)) : P host := by
  have hcolon : P (lit ":") := hl ":" (by simp)
  have hdot : P (lit ".") := hl "." (by simp)
  have hun : P unreserved := unreserved_of hP ha hd (hs "-._~" (by simp))
  have hsub : P subDelims := hs "!$&'()*+,;=" (by simp)
  have hoctet : P decOctet := by
    refine decOctet_of hP hd ?_ ?_
    · intro l hmem
      exact hl l (by simp at hmem ⊢; tauto)
    · intro set hmem
      exact hs set (by simp at hmem ⊢; tauto)
  have hv4 := ipV4Address_of hP hoctet hdot
  have hh16 := h16_of hP hx
  have hls32 := ls32_of hP hh16 hcolon hv4
  have hv6 := ipV6Address_of hP hh16 hcolon (hl "::" (by simp)) hls32
  have hvf := ipVfuture_of hP (hl "v" (by simp)) hx hdot hun hsub hcolon
  exact host_of hP (ipLiteral_of hP (hl "[" (by simp)) hv6 hvf (hl "]" (by simp))) hv4
    (regName_of hP (nameChar_of hP hun hpct hsub))

theorem scheme_of (ha : P alpha) (hd : P digit) (hs : P (charOf "+-.")) : P scheme :=
  hP.seq ha (hP.star schemeChar_consumes (hP.alt (hP.alt ha hd) hs))

end

end Foxy.Uri
