import Foxy.Uri.Addresses
import Foxy.Uri.Encoders

/-!
# Foxy.Uri.DottedQuads

`dec_octet` and `ip_v4_address` of `foxy/uri.hpp` as decimal numerals, and what
the choice between an address and a registered name makes of `host`.

The five alternatives of an octet go from the longest numeral to the shortest,
so that the first one to match takes the longest numeral there is. That is all a
parser without backtracking needs where a dot has to follow. Behind the last
octet nothing has to follow, and the choice is made whatever does.
-/

namespace Foxy.Uri

open Peg X3

/-! ### Numerals -/

/-- The number a string of decimal digits stands for. -/
def decimalValue (w : Bytes) : Nat := w.foldl (fun n c => 10 * n + (c.toNat - '0'.toNat)) 0

/-- A decimal numeral between 0 and 255 without superfluous leading zeros. -/
structure IsOctet (w : Bytes) : Prop where
  ne_nil : w ≠ []
  digits : ∀ c ∈ w, isDigit c.toNat = true
  no_zero : w.head? = some (chr '0') → w.length = 1
  value_le : decimalValue w ≤ 255

theorem isDigit_iff {n : Nat} : isDigit n = true ↔ 48 ≤ n ∧ n ≤ 57 := by
  simp [isDigit]

theorem eq_zero_iff {c : UInt8} : c = chr '0' ↔ c.toNat = 48 := by
  constructor
  · rintro rfl
    rfl
  · intro h
    exact UInt8.toNat_inj.1 h

theorem isOctet_one {a : UInt8} : IsOctet [a] ↔ isDigit a.toNat = true := by
  constructor
  · intro h
    exact h.digits a (by simp)
  · intro h
    have hd := isDigit_iff.1 h
    refine ⟨by simp, by simpa using h, by simp, ?_⟩
    show 10 * 0 + (a.toNat - 48) ≤ 255
    omega

theorem isOctet_two {a b : UInt8} :
    IsOctet [a, b] ↔ (49 ≤ a.toNat ∧ a.toNat ≤ 57) ∧ isDigit b.toNat = true := by
  constructor
  · intro h
    have ha := isDigit_iff.1 (h.digits a (by simp))
    have hne : a.toNat ≠ 48 := fun h0 => absurd (h.no_zero (by simp [eq_zero_iff.2 h0])) (by simp)
    exact ⟨by omega, h.digits b (by simp)⟩
  · intro h
    obtain ⟨ha, hb⟩ := h
    have hd := isDigit_iff.1 hb
    refine ⟨by simp, ?_, ?_, ?_⟩
    · simp [isDigit_iff]
      omega
    · intro h0
      have := eq_zero_iff.1 (Option.some.inj h0)
      omega
    · show 10 * (10 * 0 + (a.toNat - 48)) + (b.toNat - 48) ≤ 255
      omega

theorem isOctet_three {a b c : UInt8} : IsOctet [a, b, c] ↔ 49 ≤ a.toNat ∧
    (48 ≤ b.toNat ∧ b.toNat ≤ 57) ∧ (48 ≤ c.toNat ∧ c.toNat ≤ 57) ∧
    100 * (a.toNat - 48) + 10 * (b.toNat - 48) + (c.toNat - 48) ≤ 255 := by
  have hvalue : decimalValue [a, b, c] =
      10 * (10 * (10 * 0 + (a.toNat - 48)) + (b.toNat - 48)) + (c.toNat - 48) := rfl
  constructor
  · intro h
    have ha := isDigit_iff.1 (h.digits a (by simp))
    have hb := isDigit_iff.1 (h.digits b (by simp))
    have hc := isDigit_iff.1 (h.digits c (by simp))
    have hne : a.toNat ≠ 48 := fun h0 => absurd (h.no_zero (by simp [eq_zero_iff.2 h0])) (by simp)
    have hle := h.value_le
    omega
  · intro h
    obtain ⟨ha, hb, hc, hle⟩ := h
    refine ⟨by simp, ?_, ?_, by omega⟩
    · simp [isDigit_iff]
      omega
    · intro h0
      have := eq_zero_iff.1 (Option.some.inj h0)
      omega

theorem le_decimal (w : Bytes) (n : Nat) :
    n ≤ w.foldl (fun n c => 10 * n + (c.toNat - '0'.toNat)) n := by
  induction w generalizing n with
  | nil => exact Nat.le_refl n
  | cons c w ih =>
      refine Nat.le_trans ?_ (ih _)
      show n ≤ 10 * n + (c.toNat - 48)
      omega

/-- Four digits are too many. -/
theorem not_isOctet_four {a b c d : UInt8} {w : Bytes} : ¬IsOctet (a :: b :: c :: d :: w) := by
  intro h
  have ha := isDigit_iff.1 (h.digits a (by simp))
  have hne : a.toNat ≠ 48 := fun h0 => absurd (h.no_zero (by simp [eq_zero_iff.2 h0])) (by simp)
  have hle := h.value_le
  have hgrow := le_decimal w (10 * (10 * (10 * (10 * 0 + (a.toNat - 48)) + (b.toNat - 48)) +
    (c.toNat - 48)) + (d.toNat - 48))
  have hvalue : decimalValue (a :: b :: c :: d :: w) = w.foldl _ _ := rfl
  rw [hvalue] at hle
  have := Nat.le_trans hgrow hle
  omega

/-! ### The alternatives of an octet -/

theorem charOf_range (set : String) (lo hi : Nat) (hset : codes set = [lo, '-'.toNat, hi])
    (hle : lo ≤ hi) {s r : Bytes} :
    charOf set s = some r ↔ ∃ c : UInt8, s = c :: r ∧ lo ≤ c.toNat ∧ c.toNat ≤ hi := by
  rw [charOf, satisfy_eq_some, hset]
  refine exists_congr fun c => and_congr_right fun _ => ?_
  show charSet [lo, '-'.toNat, hi] c.toNat = true ↔ _
  rw [charSet, if_pos rfl, charSet, Bool.or_eq_true, Bool.and_eq_true, decide_eq_true_eq,
    decide_eq_true_eq, beq_iff_eq]
  omega

theorem digit_eq_some {s r : Bytes} :
    digit s = some r ↔ ∃ c : UInt8, s = c :: r ∧ 48 ≤ c.toNat ∧ c.toNat ≤ 57 := by
  rw [digit, satisfy_eq_some]
  exact exists_congr fun c => and_congr_right fun _ => isDigit_iff

/-- The alternatives that take three digits. -/
def threeDigits : Peg UInt8 :=
  alt (alt (seq (lit "25") (charOf "0-5")) (seq (seq (lit "2") (charOf "0-4")) digit))
    (seq (lit "1") (times 2 digit))

theorem decOctet_eq : decOctet = alt (alt threeDigits (seq (charOf "1-9") digit)) digit := rfl

theorem threeDigits_sound {s r : Bytes} (h : threeDigits s = some r) :
    ∃ a b c : UInt8, s = a :: b :: c :: r ∧ IsOctet [a, b, c] := by
  rcases alt_eq_some h with h | h
  · rcases alt_eq_some h with h | h
    · obtain ⟨r₁, hl, hc⟩ := seq_eq_some_iff.1 h
      obtain ⟨c, rfl, hc⟩ := (charOf_range "0-5" 48 53 rfl (by decide)).1 hc
      refine ⟨chr '2', chr '5', c, lit_eq_some hl, isOctet_three.2 ?_⟩
      have h2 : (chr '2').toNat = 50 := rfl
      have h5 : (chr '5').toNat = 53 := rfl
      omega
    · obtain ⟨r₂, h, hc⟩ := seq_eq_some_iff.1 h
      obtain ⟨r₁, hl, hb⟩ := seq_eq_some_iff.1 h
      obtain ⟨b, rfl, hb⟩ := (charOf_range "0-4" 48 52 rfl (by decide)).1 hb
      obtain ⟨c, rfl, hc⟩ := digit_eq_some.1 hc
      refine ⟨chr '2', b, c, lit_eq_some hl, isOctet_three.2 ?_⟩
      have h2 : (chr '2').toNat = 50 := rfl
      omega
  · obtain ⟨r₁, hl, h⟩ := seq_eq_some_iff.1 h
    obtain ⟨r₂, hb, h⟩ := seq_eq_some_iff.1 h
    obtain ⟨r₃, hc, h⟩ := seq_eq_some_iff.1 h
    obtain rfl : r₃ = r := Option.some.inj h
    obtain ⟨b, rfl, hb⟩ := digit_eq_some.1 hb
    obtain ⟨c, rfl, hc⟩ := digit_eq_some.1 hc
    refine ⟨chr '1', b, c, lit_eq_some hl, isOctet_three.2 ?_⟩
    have h1 : (chr '1').toNat = 49 := rfl
    omega

/-- The first digit, and behind a 2 the second one, says which alternative it is. -/
theorem threeDigits_octet {a b c : UInt8} (h : IsOctet [a, b, c]) (r : Bytes) :
    threeDigits (a :: b :: c :: r) = some r := by
  obtain ⟨ha, hb, hc, hle⟩ := isOctet_three.1 h
  by_cases h1 : a = chr '1'
  · subst h1
    have hdigits : times 2 digit (b :: c :: r) = some r :=
      seq_eq_some_iff.2 ⟨c :: r, digit_eq_some.2 ⟨b, rfl, hb⟩,
        seq_eq_some_iff.2 ⟨r, digit_eq_some.2 ⟨c, rfl, hc⟩, rfl⟩⟩
    rw [threeDigits, alt_eq_right rfl]
    exact hdigits
  · have h2 : a = chr '2' := by
      have hne : a.toNat ≠ 49 := fun h0 => h1 (UInt8.toNat_inj.1 h0)
      refine UInt8.toNat_inj.1 ?_
      show a.toNat = 50
      omega
    subst h2
    have hvalue : (chr '2').toNat = 50 := rfl
    by_cases h5 : b = chr '5'
    · subst h5
      have hvalue' : (chr '5').toNat = 53 := rfl
      have hlast : charOf "0-5" (c :: r) = some r :=
        (charOf_range "0-5" 48 53 rfl (by decide)).2 ⟨c, rfl, by omega⟩
      exact alt_eq_left (alt_eq_left hlast)
    · have hne : b.toNat ≠ 53 := fun h0 => h5 (UInt8.toNat_inj.1 h0)
      have hnone : lit "25" (chr '2' :: b :: c :: r) = none := by
        cases hl : lit "25" (chr '2' :: b :: c :: r) with
        | none => rfl
        | some t => exact absurd (List.cons.inj (List.cons.inj (lit_eq_some hl)).2).1 h5
      have hfirst : seq (lit "25") (charOf "0-5") (chr '2' :: b :: c :: r) = none := by
        rw [seq, hnone]
      have hmiddle : charOf "0-4" (b :: c :: r) = some (c :: r) :=
        (charOf_range "0-4" 48 52 rfl (by decide)).2 ⟨b, rfl, by omega⟩
      have hlast : digit (c :: r) = some r := digit_eq_some.2 ⟨c, rfl, hc⟩
      refine alt_eq_left ((alt_eq_right hfirst).trans ?_)
      exact seq_eq_some_iff.2 ⟨c :: r, hmiddle, hlast⟩

theorem threeDigits_eq_some {s r : Bytes} :
    threeDigits s = some r ↔ ∃ a b c : UInt8, s = a :: b :: c :: r ∧ IsOctet [a, b, c] := by
  constructor
  · exact threeDigits_sound
  · intro h
    obtain ⟨a, b, c, rfl, h⟩ := h
    exact threeDigits_octet h r

theorem twoDigits_eq_some {s r : Bytes} :
    seq (charOf "1-9") digit s = some r ↔ ∃ a b : UInt8, s = a :: b :: r ∧ IsOctet [a, b] := by
  simp only [seq_eq_some_iff, charOf_range "1-9" 49 57 rfl (by decide), digit_eq_some,
    isOctet_two, isDigit_iff]
  constructor
  · intro h
    obtain ⟨r₁, ⟨a, rfl, ha⟩, b, rfl, hb⟩ := h
    exact ⟨a, b, rfl, ha, hb⟩
  · intro h
    obtain ⟨a, b, rfl, ha, hb⟩ := h
    exact ⟨b :: r, ⟨a, rfl, ha⟩, b, rfl, hb⟩

theorem oneDigit_eq_some {s r : Bytes} :
    digit s = some r ↔ ∃ a : UInt8, s = a :: r ∧ IsOctet [a] := by
  simp only [digit_eq_some, isOctet_one, isDigit_iff]

/-! ### The longest numeral -/

theorem IsOctet.cases {w : Bytes} (h : IsOctet w) :
    (∃ a, w = [a]) ∨ (∃ a b, w = [a, b]) ∨ ∃ a b c, w = [a, b, c] := by
  match w with
  | [] => exact absurd rfl h.ne_nil
  | [a] => exact Or.inl ⟨a, rfl⟩
  | [a, b] => exact Or.inr (Or.inl ⟨a, b, rfl⟩)
  | [a, b, c] => exact Or.inr (Or.inr ⟨a, b, c, rfl⟩)
  | _ :: _ :: _ :: _ :: _ => exact absurd h not_isOctet_four

theorem numeral_toNat {c : UInt8} (hc : isDigit c.toNat = true) : numeral (c.toNat - 48) = c := by
  simp only [isDigit, Bool.and_eq_true, decide_eq_true_eq] at hc
  refine UInt8.toNat_inj.1 ?_
  rw [numeral, UInt8.toNat_add, UInt8.toNat_ofNat', toNat_chr (by decide)]
  show (48 + (c.toNat - 48) % 2 ^ 8) % 2 ^ 8 = c.toNat
  omega

/-- Every numeral is one of the grammar. -/
theorem IsOctet.exists_text {w : Bytes} (h : IsOctet w) : ∃ o : DecOctet, w = o.text := by
  have hnumeral (c : UInt8) (hc : c ∈ w) : numeral (c.toNat - 48) = c :=
    numeral_toNat (h.digits c hc)
  rcases h.cases with ⟨a, rfl⟩ | ⟨a, b, rfl⟩ | ⟨a, b, c, rfl⟩
  · have ha := isDigit_iff.1 (isOctet_one.1 h)
    refine ⟨.digit ⟨a.toNat - 48, by omega⟩, ?_⟩
    show [a] = [numeral (a.toNat - 48)]
    rw [hnumeral a (by simp)]
  · obtain ⟨ha, hb⟩ := isOctet_two.1 h
    have hb := isDigit_iff.1 hb
    refine ⟨.tens ⟨a.toNat - 49, by omega⟩ ⟨b.toNat - 48, by omega⟩, ?_⟩
    show [a, b] = [numeral (a.toNat - 49 + 1), numeral (b.toNat - 48)]
    rw [show a.toNat - 49 + 1 = a.toNat - 48 by omega, hnumeral a (by simp), hnumeral b (by simp)]
  · obtain ⟨ha, hb, hc, hle⟩ := isOctet_three.1 h
    by_cases h1 : a.toNat = 49
    · obtain rfl : a = chr '1' := UInt8.toNat_inj.1 h1
      refine ⟨.hundred ⟨b.toNat - 48, by omega⟩ ⟨c.toNat - 48, by omega⟩, ?_⟩
      show [chr '1', b, c] = [chr '1', numeral (b.toNat - 48), numeral (c.toNat - 48)]
      rw [hnumeral b (by simp), hnumeral c (by simp)]
    · have h2 : a.toNat = 50 := by omega
      obtain rfl : a = chr '2' := UInt8.toNat_inj.1 h2
      by_cases h5 : b.toNat = 53
      · obtain rfl : b = chr '5' := UInt8.toNat_inj.1 h5
        refine ⟨.top ⟨c.toNat - 48, by omega⟩, ?_⟩
        show [chr '2', chr '5', c] = [chr '2', chr '5', numeral (c.toNat - 48)]
        rw [hnumeral c (by simp)]
      · refine ⟨.twoHundred ⟨b.toNat - 48, by omega⟩ ⟨c.toNat - 48, by omega⟩, ?_⟩
        show [chr '2', b, c] = [chr '2', numeral (b.toNat - 48), numeral (c.toNat - 48)]
        rw [hnumeral b (by simp), hnumeral c (by simp)]

/-- What the rule takes is the longest numeral, since the longer ones have been
tried before. -/
theorem decOctet_longest {s r : Bytes} (h : decOctet s = some r) :
    ∃ w, s = w ++ r ∧ Longest IsOctet w s := by
  rw [decOctet_eq] at h
  cases h₃ : threeDigits s with
  | some r' =>
      rw [alt_eq_left (alt_eq_left h₃), Option.some.injEq] at h
      subst h
      obtain ⟨a, b, c, rfl, ho⟩ := threeDigits_eq_some.1 h₃
      refine ⟨[a, b, c], rfl, ho, ⟨r', rfl⟩, ?_⟩
      intro v hv _
      rcases hv.cases with ⟨_, rfl⟩ | ⟨_, _, rfl⟩ | ⟨_, _, _, rfl⟩ <;> simp
  | none =>
      have hthree {v : Bytes} (hv : IsOctet v) (hp : v <+: s) : v.length ≤ 2 := by
        rcases hv.cases with ⟨_, rfl⟩ | ⟨_, _, rfl⟩ | ⟨a, b, c, rfl⟩
        · simp
        · simp
        · obtain ⟨t, rfl⟩ := hp
          have hsome : threeDigits ([a, b, c] ++ t) = some t := threeDigits_octet hv t
          rw [h₃] at hsome
          cases hsome
      cases h₂ : seq (charOf "1-9") digit s with
      | some r' =>
          rw [alt_eq_left ((alt_eq_right h₃).trans h₂), Option.some.injEq] at h
          subst h
          obtain ⟨a, b, rfl, ho⟩ := twoDigits_eq_some.1 h₂
          exact ⟨[a, b], rfl, ho, ⟨r', rfl⟩, fun v hv hp => hthree hv hp⟩
      | none =>
          rw [alt_eq_right (alt_eq_none_iff.2 ⟨h₃, h₂⟩)] at h
          obtain ⟨a, rfl, ho⟩ := oneDigit_eq_some.1 h
          refine ⟨[a], rfl, ho, ⟨r, rfl⟩, ?_⟩
          intro v hv hp
          have hle := hthree hv hp
          rcases hv.cases with ⟨_, rfl⟩ | ⟨b, c, rfl⟩ | ⟨_, _, _, rfl⟩
          · simp
          · obtain ⟨t, ht⟩ := hp
            rw [twoDigits_eq_some.2 ⟨b, c, ht.symm, hv⟩] at h₂
            cases h₂
          · simp at hle

/-- Where it takes nothing there is no numeral. -/
theorem decOctet_none {s v : Bytes} (h : decOctet s = none) (hv : IsOctet v) : ¬v <+: s := by
  rw [decOctet_eq, alt_eq_none_iff, alt_eq_none_iff] at h
  obtain ⟨⟨h₃, h₂⟩, h₁⟩ := h
  intro h
  obtain ⟨t, ht⟩ := h
  rcases hv.cases with ⟨a, rfl⟩ | ⟨a, b, rfl⟩ | ⟨a, b, c, rfl⟩
  · rw [oneDigit_eq_some.2 ⟨a, ht.symm, hv⟩] at h₁
    cases h₁
  · rw [twoDigits_eq_some.2 ⟨a, b, ht.symm, hv⟩] at h₂
    cases h₂
  · rw [threeDigits_eq_some.2 ⟨a, b, c, ht.symm, hv⟩] at h₃
    cases h₃

theorem decOctet_eq_some {s r : Bytes} :
    decOctet s = some r ↔ ∃ w, s = w ++ r ∧ Longest IsOctet w s := by
  constructor
  · exact decOctet_longest
  · intro h
    obtain ⟨w, hs, hw⟩ := h
    cases h : decOctet s with
    | none => exact absurd hw.isPrefix (decOctet_none h hw.word)
    | some r' =>
        obtain ⟨w', hs', hw'⟩ := decOctet_longest h
        obtain rfl := hw.unique hw'
        rw [hs] at hs'
        rw [List.append_cancel_left hs']

/-! ### Addresses -/

/-- Four such numerals joined by single dots. -/
def IsIpV4 (s : Bytes) : Prop :=
  ∃ a b c d, IsOctet a ∧ IsOctet b ∧ IsOctet c ∧ IsOctet d ∧
    s = a ++ chr '.' :: (b ++ chr '.' :: (c ++ chr '.' :: d))

/-- A numeral ends where no digit follows. -/
theorem IsOctet.longest {w r : Bytes} (hw : IsOctet w)
    (hr : ∀ c ∈ r.head?, ¬isDigit c.toNat = true) : Longest IsOctet w (w ++ r) :=
  .append hw (fun _ hv => hv.digits) hr

theorem octetDot_eq_some {s r : Bytes} :
    seq decOctet (lit ".") s = some r ↔ ∃ w, IsOctet w ∧ s = w ++ chr '.' :: r := by
  constructor
  · intro h
    obtain ⟨r₁, hoctet, hdot⟩ := seq_eq_some_iff.1 h
    obtain ⟨w, rfl, hw⟩ := decOctet_longest hoctet
    exact ⟨w, hw.word, by rw [lit_eq_some hdot]; rfl⟩
  · intro h
    obtain ⟨w, hw, rfl⟩ := h
    refine seq_eq_some_iff.2 ⟨chr '.' :: r, decOctet_eq_some.2 ⟨w, rfl, hw.longest ?_⟩, lit_dot r⟩
    intro c hc
    cases hc
    decide

theorem ipV4Address_dots : ipV4Address = seq (seq decOctet (lit ".")) (seq (seq decOctet (lit "."))
    (seq (seq decOctet (lit ".")) decOctet)) := by
  simp only [ipV4Address, seq_assoc]

theorem ipV4Address_eq_some {s r : Bytes} :
    ipV4Address s = some r ↔ ∃ a b c d, IsOctet a ∧ IsOctet b ∧ IsOctet c ∧
      s = a ++ chr '.' :: (b ++ chr '.' :: (c ++ chr '.' :: (d ++ r))) ∧
      Longest IsOctet d (d ++ r) := by
  rw [ipV4Address_dots]
  constructor
  · intro h
    obtain ⟨r₁, h₁, hrest⟩ := seq_eq_some_iff.1 h
    obtain ⟨r₂, h₂, hrest'⟩ := seq_eq_some_iff.1 hrest
    obtain ⟨r₃, h₃, hlast⟩ := seq_eq_some_iff.1 hrest'
    obtain ⟨a, ha, rfl⟩ := octetDot_eq_some.1 h₁
    obtain ⟨b, hb, rfl⟩ := octetDot_eq_some.1 h₂
    obtain ⟨c, hc, rfl⟩ := octetDot_eq_some.1 h₃
    obtain ⟨d, rfl, hd⟩ := decOctet_longest hlast
    exact ⟨a, b, c, d, ha, hb, hc, rfl, hd⟩
  · intro h
    obtain ⟨a, b, c, d, ha, hb, hc, rfl, hd⟩ := h
    exact seq_eq_some_iff.2 ⟨_, octetDot_eq_some.2 ⟨a, ha, rfl⟩, seq_eq_some_iff.2
      ⟨_, octetDot_eq_some.2 ⟨b, hb, rfl⟩, seq_eq_some_iff.2
        ⟨_, octetDot_eq_some.2 ⟨c, hc, rfl⟩, decOctet_eq_some.2 ⟨d, rfl, hd⟩⟩⟩⟩

theorem ipV4Address_complete {s : Bytes} : ipV4Address s = some [] ↔ IsIpV4 s := by
  rw [ipV4Address_eq_some]
  constructor
  · intro h
    obtain ⟨a, b, c, d, ha, hb, hc, rfl, hd⟩ := h
    exact ⟨a, b, c, d, ha, hb, hc, hd.word, by rw [List.append_nil]⟩
  · intro h
    obtain ⟨a, b, c, d, ha, hb, hc, hd, rfl⟩ := h
    exact ⟨a, b, c, d, ha, hb, hc, by rw [List.append_nil], hd.longest (by simp)⟩

/-- `ip_v4_address` matches four numerals joined by dots and nothing else, and of
a longer text it takes three numerals with their dots and the longest numeral
behind them. -/
theorem ipV4Address_exact (s r : Bytes) :
    (ipV4Address s = some [] ↔ IsIpV4 s) ∧
    (ipV4Address s = some r ↔ ∃ a b c d, IsOctet a ∧ IsOctet b ∧ IsOctet c ∧
      s = a ++ chr '.' :: (b ++ chr '.' :: (c ++ chr '.' :: (d ++ r))) ∧
      Longest IsOctet d (d ++ r)) :=
  ⟨ipV4Address_complete, ipV4Address_eq_some⟩

example : ipV4Address (ascii "127.0.0.256") = some (ascii "6") := by decide +kernel

/-- It matches wherever an address stands in front. -/
theorem exists_ipV4Address {s : Bytes} :
    (∃ r, ipV4Address s = some r) ↔ ∃ p, p <+: s ∧ IsIpV4 p := by
  constructor
  · intro h
    obtain ⟨r, h⟩ := h
    obtain ⟨a, b, c, d, ha, hb, hc, rfl, hd⟩ := ipV4Address_eq_some.1 h
    refine ⟨_, ⟨r, ?_⟩, a, b, c, d, ha, hb, hc, hd.word, rfl⟩
    simp only [List.append_assoc, List.cons_append]
  · intro h
    obtain ⟨p, ⟨t, rfl⟩, a, b, c, d, ha, hb, hc, hd, rfl⟩ := h
    cases h : decOctet (d ++ t) with
    | none => exact absurd ⟨t, rfl⟩ (decOctet_none h hd)
    | some r =>
        obtain ⟨w, hw, hlongest⟩ := decOctet_longest h
        refine ⟨r, ipV4Address_eq_some.2 ⟨a, b, c, w, ha, hb, hc, ?_, hw ▸ hlongest⟩⟩
        simp only [List.append_assoc, List.cons_append, hw]

/-! ### Registered names -/

/-- `reg-name` of the RFC: unreserved characters, percent triplets and
sub-delims. -/
def RegName (r : Bytes) : Prop :=
  Coded (fun c => isAlpha c.toNat = true ∨ isDigit c.toNat = true ∨ c ∈ ascii "-._~" ∨
    c ∈ ascii "!$&'()*+,;=") r

theorem regName_fits (c : UInt8) : isNameChar c = true ↔ isAlpha c.toNat = true ∨
    isDigit c.toNat = true ∨ c ∈ ascii "-._~" ∨ c ∈ ascii "!$&'()*+,;=" := by
  -- neither set has a range in it
  have hmarks : codes "-._~" = [45, 46, 95, 126] := rfl
  have hdelims : codes "!$&'()*+,;=" = [33, 36, 38, 39, 40, 41, 42, 43, 44, 59, 61] := rfl
  rw [mem_ascii (by decide), mem_ascii (by decide), isNameChar, hmarks, hdelims]
  simp [charSet, or_assoc]

theorem regName_of_free {r : Bytes} (hpct : chr '%' ∉ r) (hr : r.all isNameChar = true) :
    RegName r :=
  coded_of_free hpct fun c hc => (regName_fits c).1 (List.all_eq_true.1 hr c hc)

theorem RegName.rule {r : Bytes} (h : RegName r) : regName r = some [] :=
  regName_coded (h.mono fun c _ hc => (regName_fits c).2 hc)

/-- A name has no bracket, so the choice is between an address and a name. -/
theorem RegName.host_eq {r : Bytes} (h : RegName r) : host r = alt ipV4Address regName r := by
  have hopen : chr '[' ∉ r := fun hmem => regName_within.all h.rule _ hmem (by decide)
  have hlit : lit "[" r = none := lit_of_head_ne rfl fun hhead => hopen (List.mem_of_head? hhead)
  have hliteral : ipLiteral r = none := by
    simp only [ipLiteral, seq, hlit]
  rw [host, alt_assoc, alt_eq_right hliteral]

/-- `parse_uri` finds every host between a scheme and a path. -/
theorem parseUri_http_host {h : Bytes} (hh : host h = some []) :
    (parseUri (ascii "http://" ++ h ++ ascii "/")).host.chars = h := by
  have htext : ascii "http://" ++ h ++ ascii "/" =
      ascii "http" ++ chr ':' :: (ascii "//" ++ (h ++ ascii "/")) := by
    simp only [List.append_assoc]
    rfl
  have hslash : ∀ c ∈ (ascii "/").head?, c ∈ ascii "/?#" := by
    intro c hc
    cases hc
    decide
  obtain ⟨vs, vh, -, hvh, hcomplete⟩ := parseComplete_http hh hslash .empty
  have hpath (parts : UriParts) : parsePortPath (ascii "/") parts =
      (true, { parts with path := slice (ascii "/") [] }) := rfl
  rw [hpath] at hcomplete
  rw [htext]
  simp only [parseUri, hcomplete]
  exact hvh

/-- A registered name is read as a host to its end unless an IPv4 address stands
in front of something else: the choice for the address is then made. -/
theorem host_regName_iff {r : Bytes} (hr : RegName r) :
    (host r = some [] ∧ (parseUri (ascii "http://" ++ r ++ ascii "/")).host.chars = r) ↔
      ((∃ p, p <+: r ∧ IsIpV4 p) → IsIpV4 r) := by
  have hhost : host r = some [] ↔ ((∃ p, p <+: r ∧ IsIpV4 p) → IsIpV4 r) := by
    rw [hr.host_eq, ← exists_ipV4Address, ← ipV4Address_complete]
    cases h : ipV4Address r with
    | none =>
        rw [alt_eq_right h, hr.rule]
        simp
    | some t =>
        rw [alt_eq_left h]
        simp
  rw [← hhost]
  exact ⟨fun h => h.1, fun h => ⟨h, parseUri_http_host h⟩⟩

/-- Three numerals are a name like any other. -/
theorem host_regName_numerals : RegName (ascii "1.2.3") ∧ host (ascii "1.2.3") = some [] ∧
    (parseUri (ascii "http://" ++ ascii "1.2.3" ++ ascii "/")).host.chars = ascii "1.2.3" := by
  have hr : RegName (ascii "1.2.3") := regName_of_free (by decide) (by decide)
  refine ⟨hr, (host_regName_iff hr).2 ?_⟩
  rw [← exists_ipV4Address]
  intro h
  obtain ⟨t, ht⟩ := h
  have hnone : ipV4Address (ascii "1.2.3") = none := rfl
  rw [hnone] at ht
  cases ht

/-- Of a name that begins like an address only the address is read, and the URI is
then taken for an authority with the host `http`. -/
theorem host_regName_cut : RegName (ascii "1.2.3.4x") ∧
    ¬(host (ascii "1.2.3.4x") = some [] ∧
      (parseUri (ascii "http://" ++ ascii "1.2.3.4x" ++ ascii "/")).host.chars =
        ascii "1.2.3.4x") := by
  have hhost : (parseUri (ascii "http://" ++ ascii "1.2.3.4x" ++ ascii "/")).host.chars =
      ascii "http" := by decide +kernel
  refine ⟨regName_of_free (by decide) (by decide), ?_⟩
  intro h
  obtain ⟨-, h⟩ := h
  rw [hhost] at h
  exact absurd h (by decide)

end Foxy.Uri
