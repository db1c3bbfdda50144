import Foxy.Uri.Addresses
import Foxy.Uri.PctOctets
import Foxy.Uri.Unicode

/-!
# Foxy.Uri.Encoders

What the encoders of `foxy/pct_encode.hpp` write, against the rules of
`foxy/uri.hpp`.

All that comes out of the loop the encoders share is left alone by the same
encoder, so encoding twice is encoding once, and on well-formed text it is a word
of `Coded`. A path, a query and a fragment are then read to their end. A host is
not always: `encode_host` copies every text that begins like an address, and its
exclusion list has no colon.
-/

namespace Foxy.Uri

open Peg X3 CodeUnit

/-! ### The loop on well-formed text -/

/-- Percent signs and hexadecimal digits are left alone. -/
def KeepsTriplets (excluded : String) : Prop :=
  ∀ c : UInt8, c = chr '%' ∨ isXdigit c.toNat = true → Unencoded excluded c

/-- An exclusion list without either of them. -/
theorem keepsTriplets_of {excluded : String}
    (h : ((codes excluded).all fun n => n != '%'.toNat && !isXdigit n) = true) :
    KeepsTriplets excluded := by
  intro c hc
  have hrange : 32 < c.toNat ∧ c.toNat < 127 := by
    obtain rfl | hx := hc
    · decide
    · simp only [isXdigit, isDigit, Bool.or_eq_true, Bool.and_eq_true, decide_eq_true_eq] at hx
      omega
  have hfree : c.toNat ∉ codes excluded := by
    intro hmem
    have hn := List.all_eq_true.1 h _ hmem
    rw [Bool.and_eq_true, bne_iff_ne, Bool.not_eq_true'] at hn
    obtain rfl | hx := hc
    · exact hn.1 (toNat_chr (by decide))
    · exact absurd hx (Bool.eq_false_iff.1 hn.2)
  simp only [Unencoded, unencoded, Bool.and_eq_true, decide_eq_true_eq, Bool.not_eq_true',
    List.contains_eq_mem, decide_eq_false_iff_not]
  exact ⟨hrange, hfree⟩

theorem pathExcluded_keeps : KeepsTriplets pathExcluded := keepsTriplets_of (by decide)

theorem queryExcluded_keeps : KeepsTriplets queryExcluded := keepsTriplets_of (by decide)

section
variable {excluded : String} {s : List UInt32} {w : Bytes}

theorem isXdigit_lt {n : Nat} (h : isXdigit n = true) : n < 128 := by
  simp only [isXdigit, isDigit, Bool.or_eq_true, Bool.and_eq_true, decide_eq_true_eq] at h
  omega

/-- An ASCII code point is that of a byte. -/
theorem exists_byte {c : UInt32} (h : c.toNat < 128) :
    ∃ b : UInt8, b.toUInt32 = c ∧ b.toNat = c.toNat := by
  refine ⟨c.toUInt8, UInt32.toNat_inj.1 ?_, toNat_toUInt8 h⟩
  rw [UInt8.toNat_toUInt32, toNat_toUInt8 h]

/-- The code point of a byte that is left alone. -/
theorem encodeOne_unencoded {b : UInt8} (h : Unencoded excluded b) :
    encodeOne excluded b.toUInt32 = [b] := by
  have hcode : unencoded excluded b.toUInt32.toNat = true := by
    rw [UInt8.toNat_toUInt32]
    exact h
  rw [encodeOne, if_pos hcode, (utf8Encode_unencoded hcode).1, UInt8.toUInt8_toUInt32]

/-- Text that is left alone. -/
theorem encodeWith_unencoded (h : ∀ b ∈ w, Unencoded excluded b) :
    encodeWith excluded (codePoints w) = w := by
  induction w with
  | nil => rfl
  | cons b w ih =>
      obtain ⟨hb, hw⟩ := List.forall_mem_cons.1 h
      show encodeOne excluded b.toUInt32 ++ encodeWith excluded (codePoints w) = b :: w
      rw [encodeOne_unencoded hb, ih hw]
      rfl

theorem encodeOne_mem (hkeep : KeepsTriplets excluded) (c : UInt32) :
    ∀ b ∈ encodeOne excluded c, Unencoded excluded b := by
  intro b hb
  simp only [encodeOne] at hb
  split at hb
  next h =>
    obtain ⟨hone, halpha, -⟩ := utf8Encode_unencoded h
    rw [hone, List.mem_singleton] at hb
    rw [hb]
    exact halpha
  next =>
    obtain ⟨d, -, hd⟩ := List.mem_flatMap.1 hb
    obtain ⟨hhigh, hlow, -⟩ := hexDigits d
    simp only [pctByte, triplet, List.mem_cons, List.not_mem_nil, or_false] at hd
    rcases hd with rfl | rfl | rfl
    · exact hkeep _ (Or.inl rfl)
    · exact hkeep _ (Or.inr hhigh)
    · exact hkeep _ (Or.inr hlow)

/-- Everything written is left alone. -/
theorem encodeWith_mem (hkeep : KeepsTriplets excluded) (s : List UInt32) :
    ∀ b ∈ encodeWith excluded s, Unencoded excluded b := by
  intro b hb
  obtain ⟨c, -, hc⟩ := List.mem_flatMap.1 hb
  exact encodeOne_mem hkeep c b hc

/-- A well-formed text is encoded into triplets and what is left alone of it. -/
theorem encodeWith_wellFormed {q : UInt8 → Prop} (hkeep : KeepsTriplets excluded)
    (hs : WellFormed s) (hq : ∀ c ∈ s, unencoded excluded c.toNat = true → q c.toUInt8) :
    Coded q (encodeWith excluded s) := by
  induction hs using WellFormed.units with
  | nil => exact .nil
  | plain c s _ _ hc ih =>
      obtain ⟨hcq, hsq⟩ := List.forall_mem_cons.1 hq
      have hne : c ≠ '%'.val := by
        rintro rfl
        exact hc rfl
      exact (encodeOne_coded hne hcq).append (ih hsq)
  | pct p a b s _ _ hp ha hb ih =>
      obtain ⟨p, rfl, hpcode⟩ := exists_byte (by rw [show p.toNat = 37 from hp]; decide)
      obtain ⟨a, rfl, hacode⟩ := exists_byte (isXdigit_lt ha)
      obtain ⟨b, rfl, hbcode⟩ := exists_byte (isXdigit_lt hb)
      have hpct : p = chr '%' := eq_pct_iff.2 (hpcode.trans hp)
      have ha' : isXdigit a.toNat = true := by
        rw [hacode]
        exact ha
      have hb' : isXdigit b.toNat = true := by
        rw [hbcode]
        exact hb
      show Coded q (encodeOne excluded p.toUInt32 ++ (encodeOne excluded a.toUInt32 ++
        (encodeOne excluded b.toUInt32 ++ encodeWith excluded s)))
      rw [encodeOne_unencoded (hkeep p (Or.inl hpct)), encodeOne_unencoded (hkeep a (Or.inr ha')),
        encodeOne_unencoded (hkeep b (Or.inr hb')), hpct]
      exact .pct ha' hb' (ih fun c hc => hq c (by simp [hc]))

end

/-! ### Paths, queries and fragments -/

/-- What an encoder writes is ASCII, and it writes the same again for it. -/
def Idempotent (encode : List UInt32 → Bytes) : Prop :=
  ∀ s, (∀ b ∈ encode s, IsAscii b) ∧ encode (codePoints (encode s)) = encode s

theorem encodeWith_idempotent {excluded : String} (hkeep : KeepsTriplets excluded) :
    Idempotent (encodeWith excluded) := by
  intro s
  have hmem := encodeWith_mem hkeep s
  refine ⟨?_, encodeWith_unencoded hmem⟩
  intro b hb
  have hlt := unencoded_lt (hmem b hb)
  show b.toNat < 128
  omega

theorem encodeWith_parts {excluded : String} (hkeep : KeepsTriplets excluded) {s : List UInt32}
    (hs : WellFormed s) : Coded (Unencoded excluded) (encodeWith excluded s) :=
  encodeWith_wellFormed hkeep hs fun _ _ hc => (utf8Encode_unencoded hc).2.1

theorem pathChars_coded {w : Bytes} (hw : Coded (Unencoded pathExcluded) w) :
    star (alt pchar (charOf "/")) w = some [] := by
  have hcons : Consumes (alt pchar (charOf "/")) := takes_alt pchar_consumes (consumes_satisfy _)
  refine star_coded_all hcons ?_ ?_ (path_coded hw)
  · intro c r hne hc
    rcases hc with hp | rfl
    · simp only [alt, pchar_plain hne, hp, if_true]
    · rfl
  · intro a b r ha hb
    simp only [alt, pchar_triplet ha hb]

/-- Encoding a path, a query or a fragment again changes nothing; and what comes
out for a well-formed text is what the rules of its component read. -/
theorem encoders_fit : Idempotent encodePath ∧ Idempotent encodeQuery ∧
    Idempotent encodeFragment ∧ ∀ s : List UInt32, WellFormed s →
      star (alt pchar (charOf "/")) (encodePath s) = some [] ∧
        (s = [] ∨ s.head? = some '/'.val → pathAbempty (encodePath s) = some []) ∧
        query (encodeQuery s) = some [] ∧ fragment (encodeFragment s) = some [] := by
  have hquery := encodeWith_idempotent queryExcluded_keeps
  refine ⟨encodeWith_idempotent pathExcluded_keeps, hquery, hquery, ?_⟩
  intro s hs
  have hpath : Coded (Unencoded pathExcluded) (encodePath s) :=
    encodeWith_parts pathExcluded_keeps hs
  have hread : query (encodeQuery s) = some [] :=
    query_coded_all (encodeWith_parts queryExcluded_keeps hs)
  refine ⟨pathChars_coded hpath, ?_, hread, hread⟩
  intro hstart
  have hall := pathAbempty_coded (path_coded hpath) (encodePath_start hstart) (t := []) (by simp)
  rwa [List.append_nil] at hall

/-- A path with a triplet in it and a letter to encode. -/
theorem encoders_fit_polish :
    pathAbempty (encodePath ['/'.val, '%'.val, 'C'.val, '3'.val, 0x017c]) = some [] := by
  have hs : WellFormed ['/'.val, '%'.val, 'C'.val, '3'.val, 0x017c] :=
    wellFormed_cons.2 ⟨fun h => absurd h (by decide), (wellFormed_pct rfl).2 ⟨rfl, rfl,
      wellFormed_cons.2 ⟨fun h => absurd h (by decide), wellFormed_nil⟩⟩⟩
  exact (encoders_fit.2.2.2 _ hs).2.1 (Or.inr rfl)

/-! ### Hosts -/

def hostExcluded : String := "\"#/<>?@[\\]^`\x7b|\x7d"

/-- What `encode_host` asks first: `unicode::ip_literal | unicode::ip_v4_address`,
matched at the beginning of the text. -/
def wideAddress (cls : UnicodeClasses) : Peg UInt32 :=
  alt (Unicode.ipLiteral cls) (Unicode.ipV4Address cls)

/-- `encode_host`. `utf_traits<char>::encode`, which the first loop uses, has the
bit templates of `utf8_encode`. -/
def encodeHost (cls : UnicodeClasses) (host : List UInt32) : Bytes :=
  if (wideAddress cls host).isSome then utf8EncodeAll host else encodeWith hostExcluded host

/-- An IP literal or an IPv4 address from its beginning to its end, in ASCII. -/
def WholeAddress (h : List UInt32) : Prop :=
  ∃ w : Bytes, (∀ b ∈ w, IsAscii b) ∧ h = codePoints w ∧
    (ipLiteral w = some [] ∨ ipV4Address w = some [])

/-- What the address rules match of the text, if anything, is all of it and in
ASCII; if they match nothing the text has no colon. -/
def PlainHost (cls : UnicodeClasses) (h : List UInt32) : Prop :=
  match wideAddress cls h with
  | some rest => rest = [] ∧ ∀ c ∈ h, c.toNat < 128
  | none => ':'.val ∉ h

theorem hostExcluded_keeps : KeepsTriplets hostExcluded := keepsTriplets_of (by decide)

/-- What `encode_host` leaves alone a registered name may hold, but for the
colon. -/
theorem host_fits : ∀ b : UInt8, unencoded hostExcluded b.toNat = true → b ≠ chr '%' →
    b ≠ chr ':' → isNameChar b = true := by
  decide +kernel

theorem regName_coded {w : Bytes} (hw : Coded (fun c => isNameChar c = true) w) :
    regName w = some [] := by
  refine star_coded_all nameChar_consumes ?_ ?_ hw
  · intro c r hne hc
    exact (nameChar_plain hne r).trans (if_pos hc)
  · intro a b r ha hb
    exact nameChar_triplet ha hb r

/-! ### An encoded text is no address that the text was not -/

theorem encodeOne_pct {excluded : String} {c : UInt32}
    (h : ¬unencoded excluded c.toNat = true) : ∃ r, encodeOne excluded c = chr '%' :: r := by
  have hutf : ∃ b bs, utf8Encode c = b :: bs := by
    simp only [utf8Encode]
    split_ifs <;> exact ⟨_, _, rfl⟩
  obtain ⟨b, bs, hbytes⟩ := hutf
  rw [encodeOne, if_neg h, hbytes]
  exact ⟨_, rfl⟩

/-- What is written before the first percent sign was there. -/
theorem encodeWith_eq_append {excluded : String} {s : List UInt32} {w r : Bytes}
    (h : encodeWith excluded s = w ++ r) (hw : chr '%' ∉ w) :
    ∃ s', s = codePoints w ++ s' ∧ encodeWith excluded s' = r := by
  induction w generalizing s with
  | nil => exact ⟨s, rfl, h⟩
  | cons c w ih =>
      simp only [List.mem_cons, not_or] at hw
      cases s with
      | nil => cases h
      | cons d s =>
          replace h : encodeOne excluded d ++ encodeWith excluded s = c :: (w ++ r) := h
          by_cases hd : unencoded excluded d.toNat = true
          · obtain ⟨b, rfl, hb⟩ := exists_byte (c := d) (by have := unencoded_lt hd; omega)
            rw [encodeOne_unencoded (show Unencoded excluded b by rw [Unencoded, hb]; exact hd)] at h
            obtain ⟨rfl, hrest⟩ := List.cons.inj h
            obtain ⟨s', rfl, hr⟩ := ih hrest hw.2
            exact ⟨s', rfl, hr⟩
          · obtain ⟨t, ht⟩ := encodeOne_pct hd
            rw [ht] at h
            exact absurd (List.cons.inj h).1 hw.1

theorem decOctet_consumes : Consumes decOctet := by
  have hany (n : Nat) : Takes (times n digit) fun _ => True :=
    (takes_compositional closed_any).times (takes_satisfy fun _ _ => trivial) n
  refine takes_alt (takes_alt (takes_alt (takes_alt ?_ ?_) ?_) ?_) (consumes_satisfy _)
  · exact consumes_seq (lit_consumes (by decide)) (consumes_satisfy _)
  · exact consumes_seq (consumes_seq (lit_consumes (by decide)) (consumes_satisfy _))
      (consumes_satisfy _)
  · exact consumes_seq (lit_consumes (by decide)) (hany 2)
  · exact consumes_seq (consumes_satisfy _) (consumes_satisfy _)

section
variable {α : Type} [CodeUnit α] {n : Nat}

theorem local_charOf {set : String} (h : charSet (codes set) n = false) :
    Local (fun c : α => code c ≠ n) (charOf set) := by
  refine local_satisfy fun c hc => ?_
  rintro rfl
  rw [h] at hc
  cases hc

theorem local_lit_code {l : String} (h : n ∉ codes l) :
    Local (fun c : α => code c ≠ n) (lit l) := by
  refine local_tokens fun f hf c hc => ?_
  obtain ⟨m, hm, rfl⟩ := List.mem_map.1 hf
  rintro rfl
  exact h (by rw [beq_iff_eq.1 hc]; exact hm)

end

section
variable {cls : UnicodeClasses} (hcls : CoincideOnAscii cls)
include hcls

/-- A dot ends an octet. -/
theorem wideDecOctet_local :
    Local (fun c : UInt32 => code c ≠ '.'.toNat) (Unicode.decOctet cls) := by
  have hP := local_compositional fun c : UInt32 => code c ≠ '.'.toNat
  have hd : Local (fun c : UInt32 => code c ≠ '.'.toNat) cls.digit := by
    refine local_satisfy fun c hc hdot => ?_
    obtain rfl : c = (chr '.').toUInt32 := UInt32.toNat_inj.1 hdot
    rw [hcls.digit (chr '.') (by show (_ : Nat) < 128; decide)] at hc
    exact absurd hc (by decide)
  refine hP.alt (hP.alt (hP.alt (hP.alt ?_ ?_) ?_) ?_) hd
  · exact hP.seq (local_lit_code (by decide)) (local_charOf (by decide))
  · exact hP.seq (hP.seq (local_lit_code (by decide)) (local_charOf (by decide))) hd
  · exact hP.seq (local_lit_code (by decide)) (hP.times hd 2)
  · exact hP.seq (local_charOf (by decide)) hd

/-- An octet of the encoded text with the dot behind it was there. -/
theorem octetDot_wide {excluded : String} {s : List UInt32} {r : Bytes}
    (h : seq decOctet (lit ".") (encodeWith excluded s) = some r) :
    ∃ s', seq (Unicode.decOctet cls) (lit ".") s = some s' ∧ encodeWith excluded s' = r := by
  obtain ⟨r₁, hoctet, hdot⟩ := seq_eq_some_iff.1 h
  obtain rfl : r₁ = chr '.' :: r := lit_eq_some hdot
  obtain ⟨o, htext, hdigits⟩ := decOctet_digits _ _ hoctet
  have hpct : chr '%' ∉ o ++ [chr '.'] := by
    intro hmem
    rcases List.mem_append.1 hmem with hmem | hmem
    · exact absurd (hdigits _ hmem) (by decide)
    · exact absurd hmem (by decide)
  obtain ⟨s', rfl, hr⟩ := encodeWith_eq_append (by rw [htext, ← List.append_cons]) hpct
  refine ⟨s', ?_, hr⟩
  have hself : decOctet o = some [] := by
    rw [htext, decOctet_local o (chr '.' :: r) (notDigit_of_notHex (notHex_dot r))] at hoctet
    obtain ⟨t, ht, heq⟩ := Option.map_eq_some_iff.1 hoctet
    rw [ht, List.append_left_eq_self.1 heq]
  have hwide : Unicode.decOctet cls (codePoints o) = some [] := by
    have hascii : ∀ b ∈ o, IsAscii b := fun b hb => isXdigit_lt (by simp [isXdigit, hdigits b hb])
    rw [codePoints, (decOctet_same hcls o hascii).1, hself]
    rfl
  have htail : codePoints (o ++ [chr '.']) ++ s' = codePoints o ++ '.'.val :: s' := by
    simp only [codePoints, List.map_append, List.append_assoc]
    rfl
  rw [htail, seq, wideDecOctet_local hcls (codePoints o) ('.'.val :: s')
    (by rintro c ⟨⟩ h; exact h rfl), hwide]
  rfl

/-- The encoder makes no IPv4 address out of a text that does not begin like
one. -/
theorem ipV4Address_wide {excluded : String} {s : List UInt32} {r : Bytes}
    (h : ipV4Address (encodeWith excluded s) = some r) :
    (Unicode.ipV4Address cls s).isSome = true := by
  have hnarrow : ipV4Address = seq (seq decOctet (lit ".")) (seq (seq decOctet (lit "."))
      (seq (seq decOctet (lit ".")) decOctet)) := by
    simp only [ipV4Address, seq_assoc]
  have hwide : Unicode.ipV4Address cls = seq (seq (Unicode.decOctet cls) (lit "."))
      (seq (seq (Unicode.decOctet cls) (lit ".")) (seq (seq (Unicode.decOctet cls) (lit "."))
        (Unicode.decOctet cls))) := by
    simp only [Unicode.ipV4Address, seq_assoc]
  rw [hnarrow] at h
  obtain ⟨r₁, h₁, h⟩ := seq_eq_some_iff.1 h
  obtain ⟨s₁, hs₁, rfl⟩ := octetDot_wide hcls h₁
  obtain ⟨r₂, h₂, h⟩ := seq_eq_some_iff.1 h
  obtain ⟨s₂, hs₂, rfl⟩ := octetDot_wide hcls h₂
  obtain ⟨r₃, h₃, h⟩ := seq_eq_some_iff.1 h
  obtain ⟨s₃, hs₃, rfl⟩ := octetDot_wide hcls h₃
  -- behind the last dot one digit is enough
  obtain ⟨o, ho, hdigits⟩ := decOctet_digits _ _ h
  obtain ⟨o', ho', hne⟩ := decOctet_consumes _ _ h
  obtain rfl : o = o' := List.append_cancel_right (ho.symm.trans ho')
  obtain ⟨c, o, rfl⟩ := List.exists_cons_of_ne_nil hne
  have hc : isDigit c.toNat = true := hdigits c (by simp)
  have hpct : chr '%' ∉ [c] := by
    rw [List.mem_singleton]
    rintro rfl
    exact absurd hc (by decide)
  obtain ⟨s', rfl, -⟩ := encodeWith_eq_append (w := [c]) ho hpct
  have hdigit : cls.digit (codePoints [c] ++ s') = some s' := by
    refine satisfy_eq_some.2 ⟨c.toUInt32, rfl, ?_⟩
    rw [hcls.digit c (isXdigit_lt (by simp [isXdigit, hc])), hc]
  have hlast : ∃ t, Unicode.decOctet cls (codePoints [c] ++ s') = some t := by
    rw [Unicode.decOctet, alt, hdigit]
    split <;> exact ⟨_, rfl⟩
  obtain ⟨t, ht⟩ := hlast
  have hall : Unicode.ipV4Address cls s = some t := by
    rw [hwide]
    exact seq_eq_some_iff.2 ⟨s₁, hs₁, seq_eq_some_iff.2 ⟨s₂, hs₂, seq_eq_some_iff.2 ⟨_, hs₃, ht⟩⟩⟩
  rw [hall]
  rfl

/-! ### When the host is a host -/

/-- Without an address in front the encoded text is a host if and only if there is
no colon. -/
theorem host_encoded_iff {h : List UInt32} (hh : WellFormed h) (hnone : wideAddress cls h = none) :
    host (encodeWith hostExcluded h) = some [] ↔ ':'.val ∉ h := by
  have hbracket : chr '[' ∉ encodeWith hostExcluded h := by
    intro hmem
    exact absurd (encodeWith_mem hostExcluded_keeps h _ hmem) (by unfold Unencoded; decide)
  constructor
  · intro hhost hcolon
    have hout : chr ':' ∈ encodeWith hostExcluded h :=
      List.mem_flatMap.2 ⟨':'.val, hcolon, by decide⟩
    rcases hostShape_of_host hhost with hfree | ⟨inner, heq, -⟩
    · exact hfree (chr ':') hout (by decide)
    · exact hbracket (by rw [heq]; simp)
  · intro hcolon
    have hliteral : ipLiteral (encodeWith hostExcluded h) = none := by
      cases hl : ipLiteral (encodeWith hostExcluded h) with
      | none => rfl
      | some r =>
          obtain ⟨inner, htext, -⟩ := ipLiteral_eq_some hl
          exact absurd (by rw [htext]; simp) hbracket
    have hv4 : ipV4Address (encodeWith hostExcluded h) = none := by
      cases hv : ipV4Address (encodeWith hostExcluded h) with
      | none => rfl
      | some r =>
          have hsome := ipV4Address_wide hcls hv
          rw [(alt_eq_none_iff.1 hnone).2] at hsome
          cases hsome
    have hname : regName (encodeWith hostExcluded h) = some [] := by
      have hcoded : Coded (fun b => Unencoded hostExcluded b ∧ b ≠ chr ':')
          (encodeWith hostExcluded h) := by
        refine encodeWith_wellFormed hostExcluded_keeps hh ?_
        intro c hc hun
        refine ⟨(utf8Encode_unencoded hun).2.1, ?_⟩
        intro heq
        have hcode := toNat_toUInt8 (c := c) (by have := unencoded_lt hun; omega)
        rw [heq] at hcode
        obtain rfl : ':'.val = c := UInt32.toNat_inj.1 hcode
        exact hcolon hc
      exact regName_coded (hcoded.mono fun b hne hb => host_fits b hb.1 hne hb.2)
    simp only [host, alt, hliteral, hv4, hname]

end

/-- ASCII is copied as it is. -/
theorem utf8EncodeAll_codePoints {w : Bytes} (hw : ∀ b ∈ w, IsAscii b) :
    utf8EncodeAll (codePoints w) = w := by
  induction w with
  | nil => rfl
  | cons b w ih =>
      obtain ⟨hb, hw⟩ := List.forall_mem_cons.1 hw
      have hone : utf8Encode b.toUInt32 = [b] := by
        rw [utf8Encode_ascii (by rw [UInt8.toNat_toUInt32]; exact hb), UInt8.toUInt8_toUInt32]
      show utf8Encode b.toUInt32 ++ utf8EncodeAll (codePoints w) = b :: w
      rw [hone, ih hw]
      rfl

/-- Beyond ASCII the first byte has its upper bit set. -/
theorem utf8Encode_wide {c : UInt32} (h : ¬c.toNat < 128) : ∃ b ∈ utf8Encode c, ¬IsAscii b := by
  have hor (x : UInt32) {m : UInt8} (hm : 128 ≤ m.toNat) : ¬IsAscii (x.toUInt8 ||| m) := by
    have hle : m.toNat ≤ (x.toUInt8 ||| m).toNat := by
      rw [UInt8.toNat_or]
      exact Nat.right_le_or
    simp only [IsAscii]
    omega
  have hbig : ¬c ≤ 0x7f := by
    intro hle
    have := UInt32.le_iff_toNat_le.1 hle
    have hconst : (0x7f : UInt32).toNat = 127 := rfl
    omega
  simp only [utf8Encode, hbig, if_false]
  split_ifs
  · exact ⟨_, List.mem_cons_self, by rw [UInt32.toUInt8_or]; exact hor _ (by decide)⟩
  · exact ⟨_, List.mem_cons_self, by rw [UInt32.toUInt8_or]; exact hor _ (by decide)⟩
  · exact ⟨_, List.mem_cons_self, by rw [UInt32.toUInt8_or]; exact hor _ (by decide)⟩

theorem ascii_of_utf8EncodeAll {h : List UInt32} (hout : ∀ b ∈ utf8EncodeAll h, IsAscii b) :
    ∀ c ∈ h, c.toNat < 128 := by
  intro c hc
  by_contra hbig
  obtain ⟨b, hb, hwide⟩ := utf8Encode_wide hbig
  exact hwide (hout b (List.mem_flatMap.2 ⟨c, hc, hb⟩))

theorem exists_bytes {h : List UInt32} (hh : ∀ c ∈ h, c.toNat < 128) :
    ∃ w : Bytes, h = codePoints w ∧ ∀ b ∈ w, IsAscii b := by
  induction h with
  | nil => exact ⟨[], rfl, by simp⟩
  | cons c h ih =>
      obtain ⟨hc, hrest⟩ := List.forall_mem_cons.1 hh
      obtain ⟨b, rfl, hb⟩ := exists_byte hc
      obtain ⟨w, rfl, hw⟩ := ih hrest
      refine ⟨b :: w, rfl, List.forall_mem_cons.2 ⟨?_, hw⟩⟩
      show b.toNat < 128
      omega

/-- `encode_host` wrote a host, and copied the text only if it is an address. -/
def EncodesHost (cls : UnicodeClasses) (h : List UInt32) : Prop :=
  (∀ b ∈ encodeHost cls h, IsAscii b) ∧ host (encodeHost cls h) = some [] ∧
    ((wideAddress cls h).isSome = true → WholeAddress h)

theorem wholeAddress_of_alt {w : Bytes} (hw : ∀ b ∈ w, IsAscii b)
    (h : alt ipLiteral ipV4Address w = some []) : WholeAddress (codePoints w) := by
  refine ⟨w, hw, rfl, ?_⟩
  simp only [alt] at h
  cases hl : ipLiteral w with
  | none =>
      rw [hl] at h
      exact Or.inr h
  | some r =>
      rw [hl] at h
      exact Or.inl h

theorem host_of_alt {w r : Bytes} (h : alt ipLiteral ipV4Address w = some r) : host w = some r := by
  rw [host, alt, h]

section
variable {cls : UnicodeClasses} (hcls : CoincideOnAscii cls)
include hcls

theorem wideAddress_codePoints {w : Bytes} (hw : ∀ b ∈ w, IsAscii b) :
    wideAddress cls (codePoints w) = (alt ipLiteral ipV4Address w).map codePoints :=
  (agrees_alt (ipLiteral_same hcls) (ipV4Address_same hcls) w hw).1

/-- A text that is copied is the host its address is, if nothing stands behind
the address. -/
theorem encodesHost_copied {h rest : List UInt32} (ha : wideAddress cls h = some rest) :
    EncodesHost cls h ↔ rest = [] ∧ ∀ c ∈ h, c.toNat < 128 := by
  have hout : encodeHost cls h = utf8EncodeAll h := by
    rw [encodeHost, ha]
    rfl
  simp only [EncodesHost, hout]
  constructor
  · intro h
    obtain ⟨hascii, hhost, -⟩ := h
    have hlt := ascii_of_utf8EncodeAll hascii
    obtain ⟨w, rfl, hw⟩ := exists_bytes hlt
    rw [utf8EncodeAll_codePoints hw] at hhost
    rw [wideAddress_codePoints hcls hw] at ha
    obtain ⟨r, hr, rfl⟩ := Option.map_eq_some_iff.1 ha
    rw [host_of_alt hr, Option.some.injEq] at hhost
    exact ⟨by rw [hhost]; rfl, hlt⟩
  · intro h
    obtain ⟨rfl, hlt⟩ := h
    obtain ⟨w, rfl, hw⟩ := exists_bytes hlt
    rw [utf8EncodeAll_codePoints hw]
    rw [wideAddress_codePoints hcls hw] at ha
    obtain ⟨r, hr, hnil⟩ := Option.map_eq_some_iff.1 ha
    obtain rfl : r = [] := List.map_eq_nil_iff.1 hnil
    exact ⟨hw, host_of_alt hr, fun _ => wholeAddress_of_alt hw hr⟩

/-- The host `encode_host` writes for a well-formed text is one exactly when what
the address rules match of the text is all of it and in ASCII, or when they match
nothing and the text has no colon. -/
theorem encodeHost_iff {h : List UInt32} (hh : WellFormed h) :
    EncodesHost cls h ↔ PlainHost cls h := by
  simp only [PlainHost]
  cases ha : wideAddress cls h with
  | some rest => exact encodesHost_copied hcls ha
  | none =>
      have hout : encodeHost cls h = encodeWith hostExcluded h := by
        rw [encodeHost, ha]
        rfl
      have hascii := (encodeWith_idempotent hostExcluded_keeps h).1
      simp only [EncodesHost, hout, ha]
      rw [← host_encoded_iff hcls hh ha]
      exact ⟨fun h => h.2.1, fun h => ⟨hascii, h, fun hsome => nomatch hsome⟩⟩

end

/-- A name with a letter to encode. -/
theorem encodeHost_polish : host (encodeHost asciiClasses ['w'.val, '.'.val, 0x017c]) = some [] := by
  have hh : WellFormed ['w'.val, '.'.val, 0x017c] :=
    wellFormed_cons.2 ⟨fun h => absurd h (by decide), wellFormed_cons.2
      ⟨fun h => absurd h (by decide), wellFormed_cons.2 ⟨fun h => absurd h (by decide),
        wellFormed_nil⟩⟩⟩
  have hplain : PlainHost asciiClasses ['w'.val, '.'.val, 0x017c] := by
    have hnone : wideAddress asciiClasses ['w'.val, '.'.val, 0x017c] = none := by rfl
    rw [PlainHost, hnone]
    decide
  exact ((encodeHost_iff asciiClasses_coincide hh).2 hplain).2.1

theorem wellFormed_codePoints {w : Bytes} (hw : chr '%' ∉ w) : WellFormed (codePoints w) := by
  intro pre c post hs hc
  have hmem : c ∈ codePoints w := by
    rw [hs]
    simp
  obtain ⟨b, hb, rfl⟩ := List.mem_map.1 hmem
  have hcode : code b = '%'.toNat := by
    rw [← hc]
    exact (UInt8.toNat_toUInt32 b).symm
  exact absurd (eq_pct_iff.2 hcode ▸ hb) hw

/-- What stands behind an address is copied with it, and a colon is left alone. -/
theorem encodeHost_raw :
    (WellFormed (codePoints (ascii "1.2.3.4 x")) ∧
      ¬EncodesHost asciiClasses (codePoints (ascii "1.2.3.4 x"))) ∧
    WellFormed (codePoints (ascii "a:b")) ∧ ¬EncodesHost asciiClasses (codePoints (ascii "a:b")) := by
  have hcopied : encodeHost asciiClasses (codePoints (ascii "1.2.3.4 x")) = ascii "1.2.3.4 x" := by
    decide +kernel
  have hcolon : encodeHost asciiClasses (codePoints (ascii "a:b")) = ascii "a:b" := by
    decide +kernel
  refine ⟨⟨wellFormed_codePoints (by decide), ?_⟩, wellFormed_codePoints (by decide), ?_⟩
  · intro h
    obtain ⟨-, hhost, -⟩ := h
    rw [hcopied, show host (ascii "1.2.3.4 x") = some (ascii " x") by decide +kernel] at hhost
    cases hhost
  · intro h
    obtain ⟨-, hhost, -⟩ := h
    rw [hcolon, show host (ascii "a:b") = some (ascii ":b") by decide +kernel] at hhost
    cases hhost

end Foxy.Uri
