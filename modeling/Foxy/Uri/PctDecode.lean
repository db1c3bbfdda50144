import Foxy.Uri.Split

/-!
# Foxy.Uri.PctDecode

`foxy::uri::pct_decode` (`foxy/pct_decode.hpp`, `foxy/error.hpp`), and what it
does with the components `parse_uri` cuts out.

The decoder stops at a percent sign that does not lead a triplet, so it reads
exactly the words of `Coded` to their end. The grammar consumes such words only:
a percent sign is taken by `pct_encoded` and by nothing else, and what is taken
by two rules in a row is again such a word. Since a capture that fails leaves
its view as it was, the views of the result hold such words at every step of the
driver, whether the text is accepted or not.
-/

namespace Foxy

/-- `foxy::error`. -/
inductive Error
  | unexpectedPct
  deriving Repr, DecidableEq

namespace Uri

open Peg X3

/-! ### The decoder -/

/-- `xpair = "%" >> xdigit >> xdigit` with the two digits as its attribute. -/
def xpair : Bytes → Option ((UInt8 × UInt8) × Bytes)
  | p :: a :: b :: rest =>
    if p = chr '%' && isXdigit a.toNat && isXdigit b.toNat then some ((a, b), rest) else none
  | _ => none

/-- The value of a digit as the decoder computes it, an `int`. -/
def digitValue (c : UInt8) : Int :=
  if c.toNat ≤ '9'.toNat then (c.toNat : Int) - '0'.toNat else (c.toNat : Int) - 'a'.toNat + 10

/-- `to_utf8_byte`: the first digit is shifted by four, the sum is cut to a `char`. -/
def toUtf8Byte (digits : UInt8 × UInt8) : UInt8 :=
  UInt8.ofInt (digitValue digits.1 * 16 + digitValue digits.2)

/-- One round of the repetition: the byte it writes, and the iterator after it. -/
def decodeRound (s : Bytes) : Option (UInt8 × Bytes) :=
  match xpair s with
  | some (digits, rest) => some (toUtf8Byte digits, rest)
  | none =>
    -- `char_ - "%"`
    match s with
    | [] => none
    | c :: rest => if c = chr '%' then none else some (c, rest)

/-- The rounds one after another: what they write, and where they stop. Each
takes a character, so there are at most as many as characters. -/
def decodeRounds : Nat → Bytes → Bytes × Bytes
  | 0, s => ([], s)
  | n + 1, s =>
    match decodeRound s with
    | none => ([], s)
    | some (b, rest) => (b :: (decodeRounds n rest).1, (decodeRounds n rest).2)

/-- `detail::pct_decode_impl`: the bytes the sink receives, and whether the whole
string was read. -/
def pctDecodeImpl (str : Bytes) : Bytes × Bool :=
  ((decodeRounds str.length str).1, (decodeRounds str.length str).2.isEmpty)

/-- The overload of `pct_decode` that throws: the bytes the sink receives before
it returns or throws. -/
def pctDecode (str : Bytes) : Bytes × Except Error Unit :=
  match pctDecodeImpl str with
  | (out, fullMatch) => (out, if !fullMatch then .error .unexpectedPct else .ok ())

/-- The overload with an `error_code`. -/
def pctDecodeEc (str : Bytes) : Bytes × Option Error :=
  match pctDecodeImpl str with
  | (out, fullMatch) => (out, if !fullMatch then some .unexpectedPct else none)

/-! ### Percent triplets -/

/-- A percent triplet. -/
def triplet (a b : UInt8) : Bytes := [chr '%', a, b]

/-- Text over an alphabet and percent triplets: every percent sign leads two
hexadecimal digits. -/
inductive Coded (q : UInt8 → Prop) : Bytes → Prop
  | nil : Coded q []
  | plain {c : UInt8} {w : Bytes} : c ≠ chr '%' → q c → Coded q w → Coded q (c :: w)
  | pct {a b : UInt8} {w : Bytes} : isXdigit a.toNat = true → isXdigit b.toNat = true →
      Coded q w → Coded q (triplet a b ++ w)

theorem Coded.append {q : UInt8 → Prop} {v w : Bytes} (hv : Coded q v) (hw : Coded q w) :
    Coded q (v ++ w) := by
  induction hv with
  | nil => exact hw
  | plain hne hc _ ih => exact .plain hne hc ih
  | pct ha hb _ ih => exact .pct ha hb ih

/-- A larger alphabet. -/
theorem Coded.mono {q q' : UInt8 → Prop} {w : Bytes} (hw : Coded q w)
    (hq : ∀ c, c ≠ chr '%' → q c → q' c) : Coded q' w := by
  induction hw with
  | nil => exact .nil
  | plain hne hc _ ih => exact .plain hne (hq _ hne hc) ih
  | pct ha hb _ ih => exact .pct ha hb ih

theorem closed_coded (q : UInt8 → Prop) : Closed (Coded q) := ⟨.nil, .append⟩

theorem decodeRound_plain {c : UInt8} (h : c ≠ chr '%') (s : Bytes) :
    decodeRound (c :: s) = some (c, s) := by
  have hx : xpair (c :: s) = none := by
    match s with
    | [] => rfl
    | [_] => rfl
    | _ :: _ :: _ => simp [xpair, h]
  simp only [decodeRound, hx, h, if_false]

theorem decodeRound_pct {a b : UInt8} (ha : isXdigit a.toNat = true)
    (hb : isXdigit b.toNat = true) (s : Bytes) :
    decodeRound (triplet a b ++ s) = some (toUtf8Byte (a, b), s) := by
  have hx : xpair (triplet a b ++ s) = some ((a, b), s) := by simp [triplet, xpair, ha, hb]
  simp only [decodeRound, hx]

theorem xpair_eq_some {s rest : Bytes} {a b : UInt8} (h : xpair s = some ((a, b), rest)) :
    s = triplet a b ++ rest ∧ isXdigit a.toNat = true ∧ isXdigit b.toNat = true := by
  match s with
  | [] => simp [xpair] at h
  | [_] => simp [xpair] at h
  | [_, _] => simp [xpair] at h
  | p :: a' :: b' :: s =>
      simp only [xpair] at h
      split at h
      next hcond =>
        simp only [Option.some.injEq, Prod.mk.injEq] at h
        obtain ⟨⟨rfl, rfl⟩, rfl⟩ := h
        simp only [Bool.and_eq_true, decide_eq_true_eq] at hcond
        obtain ⟨⟨rfl, ha⟩, hb⟩ := hcond
        exact ⟨rfl, ha, hb⟩
      next => exact absurd h (by simp)

/-- Every round takes a character. -/
theorem decodeRound_length {s rest : Bytes} {b : UInt8} (h : decodeRound s = some (b, rest)) :
    rest.length < s.length := by
  simp only [decodeRound] at h
  cases hx : xpair s with
  | some m =>
      obtain ⟨⟨a, d⟩, r⟩ := m
      simp only [hx, Option.some.injEq, Prod.mk.injEq] at h
      obtain ⟨rfl, -, -⟩ := xpair_eq_some hx
      rw [← h.2, triplet]
      show r.length < r.length + 3
      omega
  | none =>
      simp only [hx] at h
      match s with
      | [] => exact absurd h (by simp)
      | c :: s =>
          by_cases hc : c = chr '%'
          · simp [hc] at h
          · simp only [hc, if_false, Option.some.injEq, Prod.mk.injEq] at h
            rw [← h.2]
            exact Nat.lt_succ_self _

/-- More rounds than there are characters change nothing. -/
theorem decodeRounds_of_le {n : Nat} {s : Bytes} (hn : s.length ≤ n) :
    decodeRounds n s = decodeRounds s.length s := by
  induction n using Nat.strongRecOn generalizing s with
  | _ n ih =>
      cases hs : s.length with
      | zero =>
          obtain rfl : s = [] := List.length_eq_zero_iff.1 hs
          cases n <;> rfl
      | succ k =>
          obtain ⟨m, rfl⟩ : ∃ m, n = m + 1 := ⟨n - 1, by omega⟩
          simp only [decodeRounds]
          cases hr : decodeRound s with
          | none => rfl
          | some x =>
              obtain ⟨b, rest⟩ := x
              have hlt := decodeRound_length hr
              have hm := ih m (by omega) (s := rest) (by omega)
              have hk := ih k (by omega) (s := rest) (by omega)
              simp only [hm, hk]

theorem pctDecodeImpl_plain {c : UInt8} (h : c ≠ chr '%') (s : Bytes) :
    pctDecodeImpl (c :: s) = (c :: (pctDecodeImpl s).1, (pctDecodeImpl s).2) := by
  simp only [pctDecodeImpl, List.length_cons, decodeRounds, decodeRound_plain h]

theorem pctDecodeImpl_pct {a b : UInt8} (ha : isXdigit a.toNat = true)
    (hb : isXdigit b.toNat = true) (s : Bytes) :
    pctDecodeImpl (triplet a b ++ s) =
      (toUtf8Byte (a, b) :: (pctDecodeImpl s).1, (pctDecodeImpl s).2) := by
  obtain ⟨n, hn⟩ : ∃ n, n = s.length + 2 := ⟨_, rfl⟩
  have hlen : (triplet a b ++ s).length = n + 1 := by
    rw [hn]
    rfl
  have hle : decodeRounds n s = decodeRounds s.length s := decodeRounds_of_le (by omega)
  simp only [pctDecodeImpl, hlen, decodeRounds, decodeRound_pct ha hb, hle]

/-- A coded text in front is decoded by itself. -/
theorem pctDecodeImpl_append {q : UInt8 → Prop} {v : Bytes} (hv : Coded q v) (s : Bytes) :
    pctDecodeImpl (v ++ s) = ((pctDecodeImpl v).1 ++ (pctDecodeImpl s).1, (pctDecodeImpl s).2) := by
  induction hv with
  | nil => rfl
  | plain hne _ _ ih =>
      rw [List.cons_append, pctDecodeImpl_plain hne, pctDecodeImpl_plain hne, ih]
      rfl
  | pct ha hb _ ih =>
      rw [List.append_assoc, pctDecodeImpl_pct ha hb, pctDecodeImpl_pct ha hb, ih]
      rfl

/-- A coded text is read to its end. -/
theorem pctDecodeImpl_coded {q : UInt8 → Prop} {w : Bytes} (h : Coded q w) :
    (pctDecodeImpl w).2 = true := by
  have happ := pctDecodeImpl_append h []
  rw [List.append_nil] at happ
  rw [happ]
  rfl

/-- Neither overload reports an error. -/
def Decodes (w : Bytes) : Prop := (pctDecode w).2 = .ok () ∧ (pctDecodeEc w).2 = none

theorem Coded.decodes {q : UInt8 → Prop} {w : Bytes} (h : Coded q w) : Decodes w := by
  have hfull := pctDecodeImpl_coded h
  constructor
  · simp [pctDecode, hfull]
  · simp [pctDecodeEc, hfull]

/-! ### The grammar consumes coded text -/

/-- Text in which percent signs lead triplets, and nothing else is asked. -/
abbrev Triplets : Bytes → Prop := Coded fun _ => True

/-- A percent sign is in no class and in no character set of the rules. -/
theorem ne_pct_of_class (c : UInt8) (hc : (isAlpha c.toNat || isXdigit c.toNat) = true) :
    c ≠ chr '%' := by
  rintro rfl
  exact absurd hc (by decide)

theorem ne_pct_of_set (set : String) (hset : set ∈ charSets.map Prod.fst) (c : UInt8)
    (hc : charSet (codes set) c.toNat = true) : c ≠ chr '%' := by
  have hall : (charSets.map Prod.fst).all
      (fun set => !charSet (codes set) (chr '%').toNat) = true := by decide +kernel
  rintro rfl
  simpa [hc] using List.all_eq_true.1 hall set hset

theorem triplets_singleton {c : UInt8} (h : c ≠ chr '%') : Triplets [c] := .plain h trivial .nil

theorem alpha_triplets : Takes alpha Triplets := by
  refine takes_satisfy fun c hc => triplets_singleton (ne_pct_of_class c ?_)
  rw [hc, Bool.true_or]

theorem xdigit_triplets : Takes xdigit Triplets := by
  refine takes_satisfy fun c hc => triplets_singleton (ne_pct_of_class c ?_)
  rw [hc, Bool.or_true]

theorem digit_triplets : Takes digit Triplets := by
  refine takes_satisfy fun c hc => triplets_singleton (ne_pct_of_class c ?_)
  rw [isXdigit, hc, Bool.true_or, Bool.true_or, Bool.or_true]

theorem charOf_triplets {set : String} (h : set ∈ charSets.map Prod.fst) :
    Takes (charOf set) Triplets :=
  takes_satisfy fun c hc => triplets_singleton (ne_pct_of_set _ h c hc)

theorem lit_triplets {l : String} (hl : Triplets (ascii l)) : Takes (lit l) Triplets :=
  fun _ _ h => ⟨ascii l, lit_eq_some h, hl⟩

/-- Text without a percent sign. -/
theorem coded_of_free {q : UInt8 → Prop} {w : Bytes} (h : chr '%' ∉ w) (hq : ∀ c ∈ w, q c) :
    Coded q w := by
  induction w with
  | nil => exact .nil
  | cons c w ih =>
      simp only [List.mem_cons, not_or] at h
      obtain ⟨hc, hw⟩ := List.forall_mem_cons.1 hq
      exact .plain (Ne.symm h.1) hc (ih h.2 hw)

theorem triplets_of_free {w : Bytes} (h : chr '%' ∉ w) : Triplets w :=
  coded_of_free h fun _ _ => trivial

theorem triplets_compositional : Compositional fun p : Peg UInt8 => Takes p Triplets :=
  takes_compositional (closed_coded _)

/-- The triplet is the one place where a percent sign is consumed, and it is
consumed whole. -/
theorem pctEncoded_coded (q : UInt8 → Prop) : Takes pctEncoded (Coded q) := by
  intro s r h
  obtain ⟨s₂, h', hb⟩ := seq_eq_some_iff.1 h
  obtain ⟨s₁, hpct, ha⟩ := seq_eq_some_iff.1 h'
  obtain ⟨a, rfl, hfirst⟩ := satisfy_eq_some.1 ha
  obtain ⟨b, rfl, hsecond⟩ := satisfy_eq_some.1 hb
  exact ⟨triplet a b, lit_eq_some hpct, .pct hfirst hsecond .nil⟩

theorem unreserved_triplets : Takes unreserved Triplets :=
  unreserved_of triplets_compositional alpha_triplets digit_triplets
    (charOf_triplets (by simp [charSets]))

theorem subDelims_triplets : Takes subDelims Triplets := charOf_triplets (by simp [charSets])

theorem nameChar_triplets : Takes nameChar Triplets :=
  nameChar_of triplets_compositional unreserved_triplets (pctEncoded_coded _) subDelims_triplets

theorem pchar_triplets : Takes pchar Triplets :=
  pchar_of triplets_compositional nameChar_triplets (charOf_triplets (by simp [charSets]))

theorem pathAbempty_triplets : Takes pathAbempty Triplets :=
  pathAbempty_of triplets_compositional (segment_of triplets_compositional pchar_triplets)
    (charOf_triplets (by simp [charSets]))

theorem query_triplets : Takes query Triplets :=
  query_of triplets_compositional pchar_triplets (charOf_triplets (by simp [charSets]))

theorem host_triplets : Takes host Triplets := by
  have hlits : ∀ l ∈ ["25", "2", "1", ".", ":", "::", "v", "[", "]"], chr '%' ∉ ascii l := by decide
  have hsets : ∀ set ∈ ["-._~", "!$&'()*+,;=", "0-5", "0-4", "1-9"],
      set ∈ charSets.map Prod.fst := by simp [charSets]
  exact host_of_terminals triplets_compositional alpha_triplets digit_triplets xdigit_triplets
    (pctEncoded_coded _) (fun l hl => lit_triplets (triplets_of_free (hlits l hl)))
    fun set hset => charOf_triplets (hsets set hset)

/-! ### Captures of coded text -/

/-- Match or not, the attribute stays a word of `L`. -/
def Keeps (c : BasicCapture UInt8) (L : Bytes → Prop) : Prop :=
  ∀ s v, L v.chars → L (c s v).2.chars

section
variable {c : BasicCapture UInt8} {p : Peg UInt8} {L : Bytes → Prop}

theorem keeps_raw (h : Takes p L) : Keeps (raw p) L := by
  intro s v hv
  simp only [raw]
  cases hp : p s with
  | none => exact hv
  | some r =>
      obtain ⟨w, rfl, hw⟩ := h s r hp
      simpa using hw

theorem Keeps.after (h : Keeps c L) (p : Peg UInt8) : Keeps (thenCapture p c) L := by
  intro s v hv
  simp only [thenCapture]
  cases p s with
  | none => exact hv
  | some r => exact h r v hv

theorem Keeps.opt (h : Keeps c L) : Keeps (optCapture c) L := by
  intro s v hv
  have hc := h s v hv
  simp only [optCapture]
  cases hcs : c s v with
  | mk o a =>
      rw [hcs] at hc
      cases o <;> exact hc

end

/-- The components a user would decode. -/
structure Decodable (p : UriParts) : Prop where
  host : Triplets p.host.chars
  path : Triplets p.path.chars
  query : Triplets p.query.chars
  fragment : Triplets p.fragment.chars

theorem decodable_empty : Decodable .empty := ⟨.nil, .nil, .nil, .nil⟩

theorem parseQueryFragment_decodable (s : Bytes) {parts : UriParts} (h : Decodable parts) :
    Decodable (parseQueryFragment s parts).2 := by
  have hq := ((keeps_raw query_triplets).after (lit "?")).opt s parts.query h.query
  simp only [parseQueryFragment]
  cases hcq : optCapture (thenCapture (lit "?") (raw query)) s parts.query with
  | mk o vq =>
      rw [hcq] at hq
      cases o with
      | none => exact { h with query := hq }
      | some r =>
          have hf := ((keeps_raw query_triplets).after (lit "#")).opt r parts.fragment h.fragment
          cases hcf : optCapture (thenCapture (lit "#") (raw fragment)) r parts.fragment with
          | mk o' vf =>
              rw [show raw query = raw fragment from rfl, hcf] at hf
              simp only [hcf]
              cases o' <;> exact { h with query := hq, fragment := hf }

theorem parsePortPath_decodable (s : Bytes) {parts : UriParts} (h : Decodable parts) :
    Decodable (parsePortPath s parts).2 := by
  simp only [parsePortPath]
  cases hcp : optCapture (thenCapture (lit ":") (raw port)) s parts.port with
  | mk o vp =>
      cases o with
      | none => exact { h with }
      | some r =>
          have ha := keeps_raw pathAbempty_triplets r parts.path h.path
          cases hca : raw pathAbempty r parts.path with
          | mk o' va =>
              rw [hca] at ha
              simp only [hca]
              cases o' with
              | none => exact { h with path := ha }
              | some t => exact parseQueryFragment_decodable t { h with path := ha }

theorem parseComplete_decodable (s : Bytes) {parts : UriParts} (h : Decodable parts) :
    Decodable (parseComplete s parts).2 := by
  simp only [parseComplete]
  cases hcs : captureThen (raw scheme) (lit ":") s parts.scheme with
  | mk o vs =>
      cases o with
      | none => exact { h with }
      | some old =>
          have hh := (keeps_raw host_triplets).after
            (seq (lit "//") (opt (seq userinfo (lit "@")))) old parts.host h.host
          cases hch : thenCapture (seq (lit "//") (opt (seq userinfo (lit "@")))) (raw host) old
              parts.host with
          | mk o' vh =>
              rw [hch] at hh
              simp only [hch]
              cases o' with
              | some iter => exact parsePortPath_decodable iter { h with host := hh }
              | none =>
                  have hpath : raw pathEmpty old parts.path =
                      (some old, ⟨some old.length, []⟩) := by
                    simp [raw, pathEmpty, times]
                  simp only [hpath]
                  exact parseQueryFragment_decodable old { h with host := hh, path := .nil }

theorem parseAuthority_decodable (s : Bytes) {parts : UriParts} (h : Decodable parts) :
    Decodable (parseAuthority s parts).2 := by
  have hh := (keeps_raw host_triplets).after (opt (seq userinfo (lit "@"))) s parts.host h.host
  simp only [parseAuthority]
  cases hch : thenCapture (opt (seq userinfo (lit "@"))) (raw host) s parts.host with
  | mk o vh =>
      rw [hch] at hh
      cases o with
      | none => exact { h with host := hh }
      | some iter => exact parsePortPath_decodable iter { h with host := hh }

theorem parseUri_decodable (s : Bytes) : Decodable (parseUri s) := by
  have hcomplete := parseComplete_decodable s decodable_empty
  have hauthority := parseAuthority_decodable s decodable_empty
  simp only [parseUri]
  cases hc : parseComplete s .empty with
  | mk b p =>
      rw [hc] at hcomplete
      cases b with
      | true => exact hcomplete
      | false =>
          cases ha : parseAuthority s .empty with
          | mk b' p' =>
              rw [ha] at hauthority
              cases b' with
              | true => exact hauthority
              | false => exact decodable_empty

/-- The host, path, query and fragment of every result of `parse_uri`, in
complete or in authority form, decode without an error. -/
theorem parseUri_decodes (s : Bytes) :
    Decodes (parseUri s).host.chars ∧ Decodes (parseUri s).path.chars ∧
      Decodes (parseUri s).query.chars ∧ Decodes (parseUri s).fragment.chars := by
  have h := parseUri_decodable s
  exact ⟨h.host.decodes, h.path.decodes, h.query.decodes, h.fragment.decodes⟩

end Uri

end Foxy
