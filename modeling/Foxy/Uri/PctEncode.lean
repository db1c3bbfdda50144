import Mathlib.Data.FinEnum
import Foxy.Uri.Grammar
import Foxy.Uri.PctDecode

/-!
# Foxy.Uri.PctEncode

The encoders of `foxy/pct_encode.hpp` for paths, queries and fragments, over
`utf8_encode` of `foxy/utf8.hpp`, and the round trip through `parse_uri` and
`pct_decode`.

Three tables have to fit. What an encoder leaves alone is a `pchar`, a slash or,
in a query, a question mark; everything else it writes is a triplet; and the
decoder's arithmetic undoes the encoder's lower-case digits. So the encoded parts
are words of `Coded` over alphabets that the rules read to the next delimiter.
-/

namespace Foxy

/-- `utf8_encode` of one code point, by the bit templates of the source. What is
above U+10FFFF is no code point; it falls into the last template. -/
def utf8Encode (codePoint : UInt32) : Bytes :=
  if codePoint ≤ 0x7f then
    -- 0xxxxxxx
    [codePoint.toUInt8]
  else if codePoint ≤ 0x7ff then
    -- 110xxxxx 10xxxxxx
    [(codePoint >>> 6 ||| 0xc0).toUInt8, (codePoint &&& 0x3f ||| 0x80).toUInt8]
  else if codePoint ≤ 0xffff then
    -- 1110xxxx 10xxxxxx 10xxxxxx
    [(codePoint >>> 12 ||| 0xe0).toUInt8, (codePoint >>> 6 &&& 0x3f ||| 0x80).toUInt8,
      (codePoint &&& 0x3f ||| 0x80).toUInt8]
  else
    -- 11110xxx 10xxxxxx 10xxxxxx 10xxxxxx
    [(codePoint >>> 18 ||| 0xf0).toUInt8, (codePoint >>> 12 &&& 0x3f ||| 0x80).toUInt8,
      (codePoint >>> 6 &&& 0x3f ||| 0x80).toUInt8, (codePoint &&& 0x3f ||| 0x80).toUInt8]

/-- `utf8_encode` of a range. -/
def utf8EncodeAll (s : List UInt32) : Bytes := s.flatMap utf8Encode

namespace Uri

open Peg X3

/-! ### The encoders -/

/-- A hexadecimal digit as `karma::hex` prints it. -/
def hexDigit (n : UInt8) : UInt8 := if n < 10 then chr '0' + n else chr 'a' + (n - 10)

/-- `karma::lit("%") << karma::right_align(2, karma::lit("0"))[karma::hex]`. -/
def pctByte (b : UInt8) : Bytes := triplet (hexDigit (b / 16)) (hexDigit (b % 16))

/-- "No need to encode the normal ascii set": the codes an encoder with this
exclusion list leaves alone. -/
def unencoded (excluded : String) (n : Nat) : Bool :=
  32 < n && n < 127 && !(codes excluded).contains n

/-- What an encoder writes for one code point. -/
def encodeOne (excluded : String) (codePoint : UInt32) : Bytes :=
  if unencoded excluded codePoint.toNat then utf8Encode codePoint
  else (utf8Encode codePoint).flatMap pctByte

/-- The loop of the encoders, which differ in the exclusion list only. -/
def encodeWith (excluded : String) (s : List UInt32) : Bytes := s.flatMap (encodeOne excluded)

def pathExcluded : String := "\"#<>?[\\]^`\x7b|\x7d"

def queryExcluded : String := "\"#:<>@[\\]^`\x7b|\x7d"

/-- `encode_path`. -/
def encodePath : List UInt32 → Bytes := encodeWith pathExcluded

/-- `encode_query`. -/
def encodeQuery : List UInt32 → Bytes := encodeWith queryExcluded

/-- `encode_fragment`. -/
def encodeFragment (s : List UInt32) : Bytes := encodeQuery s

/-! ### Encoded text and its decoding -/

/-- These bytes come out, and neither overload reports an error. -/
def DecodesTo (w out : Bytes) : Prop := pctDecode w = (out, .ok ()) ∧ pctDecodeEc w = (out, none)

/-- The digits of a byte are hexadecimal digits, and the decoder's arithmetic
puts them together again. -/
theorem hexDigits : ∀ b : UInt8, isXdigit (hexDigit (b / 16)).toNat = true ∧
    isXdigit (hexDigit (b % 16)).toNat = true ∧
    toUtf8Byte (hexDigit (b / 16), hexDigit (b % 16)) = b := by decide +kernel

theorem utf8Encode_ascii {c : UInt32} (h : c.toNat < 128) : utf8Encode c = [c.toUInt8] := by
  have hle : c ≤ 0x7f := UInt32.le_iff_toNat_le.2 (by show c.toNat ≤ 127; omega)
  simp only [utf8Encode, hle, if_true]

theorem toNat_toUInt8 {c : UInt32} (h : c.toNat < 128) : c.toUInt8.toNat = c.toNat := by
  rw [UInt32.toNat_toUInt8]
  omega

/-- Bytes written as triplets. -/
theorem pctBytes_coded (q : UInt8 → Prop) (bs : Bytes) : Coded q (bs.flatMap pctByte) := by
  induction bs with
  | nil => exact .nil
  | cons b bs ih =>
      obtain ⟨hhigh, hlow, -⟩ := hexDigits b
      exact .pct hhigh hlow ih

theorem pctBytes_decode (bs : Bytes) : (pctDecodeImpl (bs.flatMap pctByte)).1 = bs := by
  induction bs with
  | nil => rfl
  | cons b bs ih =>
      obtain ⟨hhigh, hlow, hbyte⟩ := hexDigits b
      rw [List.flatMap_cons, pctByte, pctDecodeImpl_pct hhigh hlow, ih, hbyte]

section
variable {excluded : String} {c : UInt32} {s : List UInt32}

theorem unencoded_lt {n : Nat} (h : unencoded excluded n = true) : n < 127 := by
  simp only [unencoded, Bool.and_eq_true, decide_eq_true_eq] at h
  exact h.1.2

/-- The alphabet of what is left alone. -/
def Unencoded (excluded : String) (b : UInt8) : Prop := unencoded excluded b.toNat = true

/-- What is left alone is the byte itself, and a percent sign only for a percent
sign. -/
theorem utf8Encode_unencoded (h : unencoded excluded c.toNat = true) :
    utf8Encode c = [c.toUInt8] ∧ Unencoded excluded c.toUInt8 ∧
      (c ≠ '%'.val → c.toUInt8 ≠ chr '%') := by
  have hlt := unencoded_lt h
  have hbyte : c.toUInt8.toNat = c.toNat := toNat_toUInt8 (by omega)
  refine ⟨utf8Encode_ascii (by omega), by rw [Unencoded, hbyte]; exact h, ?_⟩
  intro hc heq
  exact hc (UInt32.toNat_inj.1 (by rw [← hbyte, heq]; rfl))

/-- A code point becomes triplets, or the byte itself if the alphabet has it. -/
theorem encodeOne_coded {q : UInt8 → Prop} (hc : c ≠ '%'.val)
    (hq : unencoded excluded c.toNat = true → q c.toUInt8) : Coded q (encodeOne excluded c) := by
  simp only [encodeOne]
  split
  next h =>
    obtain ⟨hone, -, hne⟩ := utf8Encode_unencoded h
    rw [hone]
    exact .plain (hne hc) (hq h) .nil
  next => exact pctBytes_coded _ _

theorem encodeOne_unencoded_coded (hc : c ≠ '%'.val) :
    Coded (Unencoded excluded) (encodeOne excluded c) :=
  encodeOne_coded hc fun h => (utf8Encode_unencoded h).2.1

theorem encodeOne_decode (hc : c ≠ '%'.val) :
    (pctDecodeImpl (encodeOne excluded c)).1 = utf8Encode c := by
  simp only [encodeOne]
  split
  next h =>
    obtain ⟨hone, -, hne⟩ := utf8Encode_unencoded h
    rw [hone, pctDecodeImpl_plain (hne hc)]
    rfl
  next => exact pctBytes_decode _

/-- Without a percent sign in the input, every percent sign of the output leads a
triplet. -/
theorem encodeWith_coded (excluded : String) (hs : '%'.val ∉ s) :
    Coded (Unencoded excluded) (encodeWith excluded s) := by
  induction s with
  | nil => exact .nil
  | cons c s ih =>
      obtain ⟨hne, hrest⟩ := not_or.1 (List.mem_cons.not.1 hs)
      rw [encodeWith, List.flatMap_cons]
      exact (encodeOne_unencoded_coded (Ne.symm hne)).append (ih hrest)

/-- Decoding gives the UTF-8 bytes back. -/
theorem encodeWith_decode (excluded : String) (hs : '%'.val ∉ s) :
    (pctDecodeImpl (encodeWith excluded s)).1 = utf8EncodeAll s := by
  induction s with
  | nil => rfl
  | cons c s ih =>
      obtain ⟨hne, hrest⟩ := not_or.1 (List.mem_cons.not.1 hs)
      rw [encodeWith, List.flatMap_cons,
        pctDecodeImpl_append (encodeOne_unencoded_coded (Ne.symm hne)),
        encodeOne_decode (Ne.symm hne)]
      show utf8Encode c ++ (pctDecodeImpl (encodeWith excluded s)).1 = _
      rw [ih hrest]
      rfl

theorem encodeWith_decodesTo (hs : '%'.val ∉ s) :
    DecodesTo (encodeWith excluded s) (utf8EncodeAll s) := by
  obtain ⟨hthrow, hec⟩ := (encodeWith_coded excluded hs).decodes
  have hout := encodeWith_decode excluded hs
  exact ⟨Prod.ext hout hthrow, Prod.ext hout hec⟩

end

/-! ### Encoded text before the rules -/

/-- The single characters of `pchar`. -/
def isPchar (c : UInt8) : Bool :=
  isAlpha c.toNat || isDigit c.toNat || charSet (codes "-._~") c.toNat ||
    charSet (codes "!$&'()*+,;=") c.toNat || charSet (codes ":@") c.toNat

/-- The characters of a path beside its triplets. -/
def PathChar (c : UInt8) : Prop := isPchar c = true ∨ c = chr '/'

theorem pctEncoded_plain {c : UInt8} (h : c ≠ chr '%') (r : Bytes) : pctEncoded (c :: r) = none := by
  have hl : lit "%" (c :: r) = none := lit_of_head_ne (c := chr '%') rfl (by simpa using h)
  simp only [pctEncoded, seq, hl]

theorem pctEncoded_triplet {a b : UInt8} (ha : isXdigit a.toNat = true)
    (hb : isXdigit b.toNat = true) (r : Bytes) : pctEncoded (triplet a b ++ r) = some r := by
  have hl : lit "%" (triplet a b ++ r) = some (a :: b :: r) := lit_append (by decide) (a :: b :: r)
  simp only [pctEncoded, seq, hl, xdigit, satisfy, ha, hb, if_true]

/-- The single characters of a registered name. -/
def isNameChar (c : UInt8) : Bool :=
  isAlpha c.toNat || isDigit c.toNat || charSet (codes "-._~") c.toNat ||
    charSet (codes "!$&'()*+,;=") c.toNat

theorem nameChar_plain {c : UInt8} (h : c ≠ chr '%') (r : Bytes) :
    nameChar (c :: r) = if isNameChar c then some r else none := by
  have hname : nameChar (c :: r) = alt unreserved subDelims (c :: r) :=
    alt_congr (alt_of_none (pctEncoded_plain h r)) rfl
  rw [hname, unreserved, subDelims, alpha, digit, charOf, charOf, alt_satisfy, alt_satisfy,
    alt_satisfy]
  rfl

theorem nameChar_triplet {a b : UInt8} (ha : isXdigit a.toNat = true)
    (hb : isXdigit b.toNat = true) (r : Bytes) : nameChar (triplet a b ++ r) = some r := by
  have hu : unreserved (triplet a b ++ r) = none := rfl
  simp only [nameChar, alt, hu, pctEncoded_triplet ha hb]

theorem pchar_plain {c : UInt8} (h : c ≠ chr '%') (r : Bytes) :
    pchar (c :: r) = if isPchar c then some r else none := by
  have hname : nameChar (c :: r) = satisfy isNameChar (c :: r) := nameChar_plain h r
  have hpchar : pchar (c :: r) = alt (satisfy isNameChar) (charOf ":@") (c :: r) :=
    alt_congr hname rfl
  rw [hpchar, charOf, alt_satisfy]
  rfl

theorem pchar_triplet {a b : UInt8} (ha : isXdigit a.toNat = true) (hb : isXdigit b.toNat = true)
    (r : Bytes) : pchar (triplet a b ++ r) = some r :=
  alt_eq_left (nameChar_triplet ha hb r)

/-- A repetition reads coded text to its end when its body reads every unit. -/
theorem star_coded {p : Peg UInt8} {q : UInt8 → Prop} (hp : Consumes p)
    (hplain : ∀ c r, c ≠ chr '%' → q c → p (c :: r) = some r)
    (hpct : ∀ a b r, isXdigit a.toNat = true → isXdigit b.toNat = true →
      p (triplet a b ++ r) = some r)
    {w t : Bytes} (hw : Coded q w) (ht : p t = none) : star p (w ++ t) = some t := by
  induction hw with
  | nil => exact star_of_none hp ht
  | plain hne hc _ ih =>
      rw [List.cons_append, star_of_some hp (hplain _ _ hne hc)]
      exact ih
  | pct ha hb _ ih =>
      rw [List.append_assoc, star_of_some hp (hpct _ _ _ ha hb)]
      exact ih

theorem star_coded_all {p : Peg UInt8} {q : UInt8 → Prop} (hp : Consumes p)
    (hplain : ∀ c r, c ≠ chr '%' → q c → p (c :: r) = some r)
    (hpct : ∀ a b r, isXdigit a.toNat = true → isXdigit b.toNat = true →
      p (triplet a b ++ r) = some r)
    {w : Bytes} (hw : Coded q w) : star p w = some [] := by
  have hall := star_coded hp hplain hpct hw hp.nil
  rwa [List.append_nil] at hall

/-- What `encode_query` leaves alone a query may hold. -/
theorem query_fits : ∀ b : UInt8, unencoded queryExcluded b.toNat = true → b ≠ chr '%' →
    isPchar b = true ∨ charSet (codes "/?") b.toNat = true := by decide +kernel

/-- What `encode_path` leaves alone is a `pchar` or a slash. -/
theorem path_fits : ∀ b : UInt8, unencoded pathExcluded b.toNat = true → b ≠ chr '%' →
    isPchar b = true ∨ b = chr '/' := by decide +kernel

/-- So an encoded path is one of the grammar. -/
theorem path_coded {w : Bytes} (hw : Coded (Unencoded pathExcluded) w) :
    Coded PathChar w :=
  hw.mono fun c hne hc => path_fits c hc hne

/-- An encoded query is read up to the number sign or the end behind it. -/
theorem query_coded {w t : Bytes} (hw : Coded (Unencoded queryExcluded) w)
    (ht : ∀ c ∈ t.head?, c = chr '#') : query (w ++ t) = some t := by
  refine star_coded queryChar_consumes ?_ ?_ hw ?_
  · intro c r hne hc
    rcases query_fits c hc hne with hp | hs
    · simp only [alt, pchar_plain hne, hp, if_true]
    · have hchar : charOf "/?" (c :: r) = some r := satisfy_eq_some.2 ⟨c, rfl, hs⟩
      simp only [alt, pchar_plain hne, hchar]
      split <;> simp_all
  · intro a b r ha hb
    simp only [alt, pchar_triplet ha hb]
  · have hwithin : Within (alt pchar (charOf "/?")) (· ∉ ascii "#") :=
      within_alt (within_fewer pchar_within (by decide)) (within_charOf (by simp [charSets]))
    refine queryChar_consumes.eq_none hwithin ?_
    intro c hc hmem
    exact hmem (by rw [ht c hc]; decide)

theorem query_coded_all {w : Bytes} (hw : Coded (Unencoded queryExcluded) w) :
    query w = some [] := by
  have hall := query_coded hw (t := []) (by simp)
  rwa [List.append_nil] at hall

/-- A path, cut anywhere: the rest of a segment and the segments behind it. -/
theorem segments_coded {w t : Bytes} (hw : Coded PathChar w)
    (ht : ∀ c ∈ t.head?, c = chr '?') : seq segment pathAbempty (w ++ t) = some t := by
  have hstop (r : Bytes) (hr : ∀ c ∈ r.head?, c ∈ ascii "/?") : segment r = some r := by
    refine star_of_none pchar_consumes (pchar_consumes.eq_none pchar_within ?_)
    intro c hc hmem
    have hsub : ascii "/?" ⊆ ascii "/?#" := by decide
    exact hmem (hsub (hr c hc))
  induction hw with
  | nil =>
      have hslash : Within (charOf "/") (· ∉ ascii "?#") := within_charOf (by simp [charSets])
      have hnone : charOf "/" t = none := by
        refine (consumes_satisfy _).eq_none hslash ?_
        intro c hc hmem
        exact hmem (by rw [ht c hc]; decide)
      have hseg : segment t = some t := hstop t (fun c hc => by rw [ht c hc]; decide)
      have hpath : pathAbempty t = some t := by
        refine star_of_none slashSegment_consumes ?_
        simp only [seq, hnone]
      exact seq_eq_some_iff.2 ⟨t, hseg, hpath⟩
  | @plain c w hne hc _ ih =>
      rcases hc with hp | rfl
      · -- the segment goes on
        have hone : pchar (c :: (w ++ t)) = some (w ++ t) := by rw [pchar_plain hne, if_pos hp]
        show seq (star pchar) pathAbempty (c :: (w ++ t)) = some t
        rw [seq, star_of_some pchar_consumes hone]
        exact ih
      · -- the segment is over and the slash begins the next one
        obtain ⟨r, hseg, hpath⟩ := seq_eq_some_iff.1 ih
        have hslash : seq (charOf "/") segment (chr '/' :: (w ++ t)) = some r :=
          seq_eq_some_iff.2 ⟨w ++ t, rfl, hseg⟩
        refine seq_eq_some_iff.2 ⟨chr '/' :: (w ++ t), hstop _ (by simp; decide), ?_⟩
        show star (seq (charOf "/") segment) (chr '/' :: (w ++ t)) = some t
        rw [star_of_some slashSegment_consumes hslash]
        exact hpath
  | @pct a b w ha hb _ ih =>
      show seq (star pchar) pathAbempty (triplet a b ++ w ++ t) = some t
      rw [List.append_assoc, seq, star_of_some pchar_consumes (pchar_triplet ha hb _)]
      exact ih

/-- A path that is empty or begins with a slash is a `path-abempty`. -/
theorem pathAbempty_coded {w t : Bytes} (hw : Coded PathChar w)
    (hstart : w = [] ∨ w.head? = some (chr '/')) (ht : ∀ c ∈ t.head?, c = chr '?') :
    pathAbempty (w ++ t) = some t := by
  obtain ⟨r, hseg, hpath⟩ := seq_eq_some_iff.1 (segments_coded hw ht)
  have hnone : pchar (w ++ t) = none := by
    refine pchar_consumes.eq_none pchar_within ?_
    intro c hc hmem
    rcases hstart with rfl | hhead
    · exact hmem (by rw [ht c hc]; decide)
    · rw [List.head?_append, hhead] at hc
      cases hc
      exact hmem (by decide)
  have hself : segment (w ++ t) = some (w ++ t) := star_of_none pchar_consumes hnone
  rw [hself, Option.some.injEq] at hseg
  rw [hseg]
  exact hpath

/-! ### A scheme and a host before the path -/

/-- A literal does not look beyond itself. -/
theorem local_lit {l set : String} (hl : (ascii l).all (· ∉ ascii set) = true) :
    Local (· ∉ ascii set) (lit l : Peg UInt8) := by
  refine local_tokens fun f hf c hc => ?_
  rw [codes, List.map_map] at hf
  obtain ⟨d, hd, rfl⟩ := List.mem_map.1 hf
  have hcode : c.toNat = d.toNat := beq_iff_eq.1 hc
  have hchr : c = chr d := by
    rw [chr, ← hcode]
    exact (UInt8.ofNat_toNat (x := c)).symm
  rw [List.all_eq_true] at hl
  exact of_decide_eq_true (hl c (hchr ▸ List.mem_map_of_mem hd))

theorem local_fewer {p : Peg UInt8} {set set' : String} (h : Local (· ∉ ascii set) p)
    (hs : ascii set' ⊆ ascii set) : Local (· ∉ ascii set') p :=
  h.mono fun _ hc hmem => hc (hs hmem)

theorem class_local {f : UInt8 → Bool}
    (hf : ∀ c, f c = true → (isAlpha c.toNat || isXdigit c.toNat) = true) :
    Local (· ∉ ascii ":/?#[]@") (satisfy f) :=
  local_satisfy fun c hc => notMem_of_class c (hf c hc)

theorem alpha_local : Local (· ∉ ascii ":/?#[]@") alpha :=
  class_local fun c hc => by rw [hc, Bool.true_or]

theorem xdigit_local : Local (· ∉ ascii ":/?#[]@") xdigit :=
  class_local fun c hc => by rw [hc, Bool.or_true]

theorem digit_local : Local (· ∉ ascii ":/?#[]@") digit :=
  class_local fun c hc => by rw [isXdigit, hc, Bool.true_or, Bool.true_or, Bool.or_true]

theorem charOf_local {set : String} (h : (set, ":/?#[]@") ∈ charSets) :
    Local (· ∉ ascii ":/?#[]@") (charOf set : Peg UInt8) :=
  local_satisfy fun c hc => charSets_free _ h c hc

theorem pctEncoded_local : Local (· ∉ ascii ":/?#[]@") pctEncoded :=
  pctEncoded_of (local_compositional _) (local_lit (by decide)) xdigit_local

/-- What stands before a slash, a question mark or a number sign is the same host
as by itself. -/
theorem host_local : Local (· ∉ ascii "/?#") host := by
  have hlits : ∀ l ∈ ["25", "2", "1", ".", ":", "::", "v", "[", "]"],
      (ascii l).all (· ∉ ascii "/?#") = true := by decide
  have hsets : ∀ set ∈ ["-._~", "!$&'()*+,;=", "0-5", "0-4", "1-9"],
      (set, ":/?#[]@") ∈ charSets := by simp [charSets]
  exact host_of_terminals (local_compositional _) (local_fewer alpha_local (by decide))
    (local_fewer digit_local (by decide)) (local_fewer xdigit_local (by decide))
    (local_fewer pctEncoded_local (by decide)) (fun l hl => local_lit (hlits l hl))
    fun set hset => local_fewer (charOf_local (hsets set hset)) (by decide)

/-- A host holds no `@`. -/
theorem HostShape.at_notMem {h : Bytes} (hh : HostShape h) : chr '@' ∉ h := by
  intro hmem
  rcases hh with hfree | ⟨inner, rfl, hfree⟩
  · exact hfree _ hmem (by decide)
  · simp only [List.mem_cons, List.mem_append, List.not_mem_nil, or_false] at hmem
    rcases hmem with hopen | hinner | hclose
    · exact absurd hopen (by decide)
    · exact hfree _ hinner (by decide)
    · exact absurd hclose (by decide)

/-- Without an `@` before the next delimiter there is no userinfo. -/
theorem optUserinfo_absent {h t : Bytes} (hh : chr '@' ∉ h) (ht : ∀ c ∈ t.head?, c ∈ ascii "/?#") :
    opt (seq userinfo (lit "@")) (h ++ t) = some (h ++ t) := by
  have hat : ¬t.head? = some (chr '@') := fun hhead => absurd (ht _ hhead) (by decide)
  cases hu : seq userinfo (lit "@") (h ++ t) with
  | none => simp only [opt, hu]
  | some r =>
      exfalso
      obtain ⟨r₁, hui, hlit⟩ := seq_eq_some_iff.1 hu
      obtain ⟨u, hs, hfree⟩ := userinfo_within _ r₁ hui
      obtain rfl : r₁ = chr '@' :: r := lit_eq_some hlit
      rcases List.append_eq_append_iff.1 hs with ⟨v, rfl, htail⟩ | ⟨v, rfl, htail⟩
      · -- the userinfo would reach the delimiter
        cases v with
        | nil => exact hat (by rw [htail]; rfl)
        | cons c v =>
            have hc : c ∈ ascii "/?#" := ht c (by rw [htail]; rfl)
            have hsub : ascii "/?#" ⊆ ascii "/?#[]@" := by decide
            exact hfree c (by simp) (hsub hc)
      · -- the `@` would be in the host
        cases v with
        | nil => exact hat (by rw [← List.nil_append t, ← htail]; rfl)
        | cons c v =>
            obtain rfl : chr '@' = c := (List.cons.inj htail).1
            exact hh (by simp)

theorem scheme_http (t : Bytes) : scheme (ascii "http" ++ chr ':' :: t) = some (chr ':' :: t) := by
  show star (alt (alt alpha digit) (charOf "+-.")) (chr 't' :: chr 't' :: chr 'p' :: chr ':' :: t) = _
  rw [star_of_some (r := chr 't' :: chr 'p' :: chr ':' :: t) schemeChar_consumes rfl,
    star_of_some (r := chr 'p' :: chr ':' :: t) schemeChar_consumes rfl,
    star_of_some (r := chr ':' :: t) schemeChar_consumes rfl, star_of_none schemeChar_consumes rfl]

/-! ### The round trip -/

/-- A text put together from a host and encoded parts. -/
def httpUri (h : Bytes) (p q f : List UInt32) : Bytes :=
  ascii "http://" ++ h ++ encodePath p ++ ascii "?" ++ encodeQuery q ++ ascii "#" ++
    encodeFragment f

theorem encodePath_start {p : List UInt32} (hp : p = [] ∨ p.head? = some '/'.val) :
    encodePath p = [] ∨ (encodePath p).head? = some (chr '/') := by
  rcases hp with rfl | hp
  · exact Or.inl rfl
  · obtain ⟨p', rfl⟩ := List.head?_eq_some_iff.1 hp
    have hone : encodeOne pathExcluded '/'.val = [chr '/'] := by decide
    right
    rw [encodePath, encodeWith, List.flatMap_cons, hone]
    rfl

section
variable {h w v u t : Bytes}

/-- The end of the driver on an encoded query and an encoded fragment. -/
theorem parseQueryFragment_coded (hv : Coded (Unencoded queryExcluded) v)
    (hu : Coded (Unencoded queryExcluded) u) (parts : UriParts) :
    parseQueryFragment (chr '?' :: (v ++ chr '#' :: u)) parts = (true, { parts with
      query := slice (v ++ chr '#' :: u) (chr '#' :: u), fragment := slice u [] }) := by
  have hmark : lit "?" (chr '?' :: (v ++ chr '#' :: u)) = some (v ++ chr '#' :: u) :=
    lit_append (by decide) _
  have hsign : lit "#" (chr '#' :: u) = some u := lit_append (by decide) _
  have hquery : query (v ++ chr '#' :: u) = some (chr '#' :: u) := query_coded hv (by simp)
  have hfragment : fragment u = some [] := query_coded_all hu
  simp only [parseQueryFragment, optLed_of_some hmark hquery, optLed_of_some hsign hfragment]
  rfl

/-- Where an encoded path or the query behind it begins. -/
theorem head?_path (hstart : w = [] ∨ w.head? = some (chr '/')) :
    ∀ c ∈ (w ++ chr '?' :: t).head?, c = chr '/' ∨ c = chr '?' := by
  intro c hc
  rcases hstart with rfl | hw
  · cases hc
    exact Or.inr rfl
  · rw [List.head?_append, hw] at hc
    cases hc
    exact Or.inl rfl

/-- No port, and the path up to the question mark. -/
theorem parsePortPath_coded (hw : Coded (Unencoded pathExcluded) w)
    (hstart : w = [] ∨ w.head? = some (chr '/')) (parts : UriParts) :
    parsePortPath (w ++ chr '?' :: t) parts = parseQueryFragment (chr '?' :: t)
      { parts with path := slice (w ++ chr '?' :: t) (chr '?' :: t) } := by
  have hport : lit ":" (w ++ chr '?' :: t) = none := by
    refine lit_of_head_ne (c := chr ':') rfl fun hc => ?_
    rcases head?_path hstart _ hc with h | h <;> exact absurd h (by decide)
  have hpath : pathAbempty (w ++ chr '?' :: t) = some (chr '?' :: t) :=
    pathAbempty_coded (path_coded hw) hstart (by simp)
  simp only [parsePortPath, optLed_of_none hport, raw_of_some hpath]

/-- The scheme `http` and a host before any of the delimiters. -/
theorem parseComplete_http (hh : host h = some []) (ht : ∀ c ∈ t.head?, c ∈ ascii "/?#")
    (parts : UriParts) :
    ∃ vs vh : View, vs.chars = ascii "http" ∧ vh.chars = h ∧
      parseComplete (ascii "http" ++ chr ':' :: (ascii "//" ++ (h ++ t))) parts =
        parsePortPath t { parts with scheme := vs, host := vh } := by
  have hscheme : captureThen (raw scheme) (lit ":")
      (ascii "http" ++ chr ':' :: (ascii "//" ++ (h ++ t))) parts.scheme =
      (some (ascii "//" ++ (h ++ t)), slice (ascii "http" ++ chr ':' :: (ascii "//" ++ (h ++ t)))
        (chr ':' :: (ascii "//" ++ (h ++ t)))) := by
    simp only [captureThen, raw_of_some (scheme_http _)]
    exact Prod.ext (lit_append (by decide) _) rfl
  have hhost : host (h ++ t) = some t := by
    rw [host_local h t fun c hc hmem => hmem (ht c hc), hh]
    rfl
  have hat : chr '@' ∉ h := (hostShape_of_host hh).at_notMem
  have hskip : seq (lit "//") (opt (seq userinfo (lit "@"))) (ascii "//" ++ (h ++ t)) =
      some (h ++ t) :=
    seq_eq_some_iff.2 ⟨h ++ t, lit_append (by decide) _, optUserinfo_absent hat ht⟩
  have hbegin : thenCapture (seq (lit "//") (opt (seq userinfo (lit "@")))) (raw host)
      (ascii "//" ++ (h ++ t)) parts.host = (some t, slice (h ++ t) t) := by
    simp only [thenCapture, hskip, raw_of_some hhost]
  refine ⟨_, _, slice_append (ascii "http") (chr ':' :: (ascii "//" ++ (h ++ t))),
    slice_append h t, ?_⟩
  simp only [parseComplete, hscheme, hbegin]

end

/-- Encode, parse, decode. A host and an encoded path, query and fragment come
back from `parse_uri` as they were put together, and decode to the UTF-8 bytes of
what was encoded. -/
theorem parseUri_httpUri {h : Bytes} {p q f : List UInt32} (hh : host h = some [])
    (hstart : p = [] ∨ p.head? = some '/'.val) (hp : '%'.val ∉ p) (hq : '%'.val ∉ q)
    (hf : '%'.val ∉ f) :
    (parseUri (httpUri h p q f)).scheme.chars = ascii "http" ∧
      (parseUri (httpUri h p q f)).host.chars = h ∧
      (parseUri (httpUri h p q f)).port.chars = [] ∧
      (parseUri (httpUri h p q f)).path.chars = encodePath p ∧
      (parseUri (httpUri h p q f)).query.chars = encodeQuery q ∧
      (parseUri (httpUri h p q f)).fragment.chars = encodeFragment f ∧
      DecodesTo (encodePath p) (utf8EncodeAll p) ∧ DecodesTo (encodeQuery q) (utf8EncodeAll q) ∧
      DecodesTo (encodeFragment f) (utf8EncodeAll f) := by
  have htext : httpUri h p q f = ascii "http" ++ chr ':' :: (ascii "//" ++ (h ++ (encodePath p ++
      chr '?' :: (encodeQuery q ++ chr '#' :: encodeFragment f)))) := by
    simp only [httpUri, List.append_assoc]
    rfl
  have hpath := encodePath_start hstart
  have hpcoded : Coded (Unencoded pathExcluded) (encodePath p) := encodeWith_coded _ hp
  have hqcoded : Coded (Unencoded queryExcluded) (encodeQuery q) := encodeWith_coded _ hq
  have hfcoded : Coded (Unencoded queryExcluded) (encodeFragment f) := encodeWith_coded _ hf
  have hmark : ∀ c ∈ (encodePath p ++ chr '?' :: (encodeQuery q ++ chr '#' ::
      encodeFragment f)).head?, c ∈ ascii "/?#" := by
    intro c hc
    rcases head?_path hpath c hc with rfl | rfl <;> decide
  obtain ⟨vs, vh, hvs, hvh, hcomplete⟩ := parseComplete_http hh hmark .empty
  rw [parsePortPath_coded hpcoded hpath, parseQueryFragment_coded hqcoded hfcoded] at hcomplete
  rw [htext]
  simp only [parseUri, hcomplete]
  exact ⟨hvs, hvh, rfl, slice_append _ _, slice_append _ _, slice_all _, encodeWith_decodesTo hp,
    encodeWith_decodesTo hq, encodeWith_decodesTo hf⟩

/-- A host, a path with a letter beyond ASCII and a space, a query with a
delimiter to encode. -/
theorem parseUri_httpUri_polish :
    (parseUri (httpUri (ascii "w.pl") ['/'.val, 0x017c, 0x20] ['#'.val] [])).host.chars =
      ascii "w.pl" ∧
    (parseUri (httpUri (ascii "w.pl") ['/'.val, 0x017c, 0x20] ['#'.val] [])).path.chars =
      encodePath ['/'.val, 0x017c, 0x20] ∧
    DecodesTo (encodePath ['/'.val, 0x017c, 0x20]) (utf8EncodeAll ['/'.val, 0x017c, 0x20]) := by
  have h := parseUri_httpUri (h := ascii "w.pl") (p := ['/'.val, 0x017c, 0x20]) (q := ['#'.val])
    (f := []) (by decide +kernel) (Or.inr rfl) (by decide) (by decide) (by decide)
  exact ⟨h.2.1, h.2.2.2.1, h.2.2.2.2.2.2.1⟩

end Uri

end Foxy
