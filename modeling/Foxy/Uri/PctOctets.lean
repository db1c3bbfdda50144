import Foxy.Uri.PctEncode

/-!
# Foxy.Uri.PctOctets

What `pct_decode` writes on every byte string, against a decoder that computes
each octet from its digits.

Both facts are inductions over the units of a text, a triplet or another byte.
The decoder is right about a first digit of either case: what `'A' - 'a'` gets
wrong there is shifted out of the byte. It is not right about an upper-case
second digit.
-/

namespace Foxy.Uri

open Peg X3 CodeUnit

/-! ### Well-formed text -/

section
variable {α : Type} [CodeUnit α] {s w : List α}

/-- Two hexadecimal digits stand here. -/
def LeadsDigits (s : List α) : Prop :=
  ∃ a b r, s = a :: b :: r ∧ isXdigit (code a) = true ∧ isXdigit (code b) = true

/-- Every percent sign is followed by two hexadecimal digits. -/
def WellFormed (s : List α) : Prop :=
  ∀ pre c post, s = pre ++ c :: post → code c = '%'.toNat → LeadsDigits post

theorem wellFormed_nil : WellFormed ([] : List α) := by
  intro pre c post h
  cases pre <;> cases h

theorem wellFormed_cons {c : α} :
    WellFormed (c :: s) ↔ (code c = '%'.toNat → LeadsDigits s) ∧ WellFormed s := by
  constructor
  · intro h
    refine ⟨h [] c s rfl, ?_⟩
    intro pre d post hs
    exact h (c :: pre) d post (by rw [hs]; rfl)
  · rintro ⟨hc, hs⟩ pre d post h
    cases pre with
    | nil =>
        cases h
        exact hc
    | cons e pre =>
        cases h
        exact hs pre d post rfl

theorem code_ne_pct {a : α} (h : isXdigit (code a) = true) : code a ≠ '%'.toNat := by
  intro heq
  rw [heq] at h
  exact absurd h (by decide)

theorem wellFormed_pct {p a b : α} (hp : code p = '%'.toNat) :
    WellFormed (p :: a :: b :: w) ↔
      isXdigit (code a) = true ∧ isXdigit (code b) = true ∧ WellFormed w := by
  rw [wellFormed_cons]
  constructor
  · intro h
    obtain ⟨hleads, hrest⟩ := h
    obtain ⟨a', b', r, heq, ha, hb⟩ := hleads hp
    cases heq
    rw [wellFormed_cons, wellFormed_cons] at hrest
    exact ⟨ha, hb, hrest.2.2⟩
  · intro h
    obtain ⟨ha, hb, hw⟩ := h
    refine ⟨fun _ => ⟨a, b, w, rfl, ha, hb⟩, wellFormed_cons.2 ⟨?_, wellFormed_cons.2 ⟨?_, hw⟩⟩⟩
    · exact fun h => absurd h (code_ne_pct ha)
    · exact fun h => absurd h (code_ne_pct hb)

/-- Induction over the units of a well-formed text. -/
theorem WellFormed.units {motive : (s : List α) → WellFormed s → Prop}
    (nil : motive [] wellFormed_nil)
    (plain : ∀ c w (hw : WellFormed w) (hcons : WellFormed (c :: w)), code c ≠ '%'.toNat →
      motive w hw → motive (c :: w) hcons)
    (pct : ∀ p a b w (hw : WellFormed w) (hcons : WellFormed (p :: a :: b :: w)),
      code p = '%'.toNat → isXdigit (code a) = true → isXdigit (code b) = true → motive w hw →
      motive (p :: a :: b :: w) hcons) {s : List α} (hs : WellFormed s) : motive s hs := by
  induction hn : s.length using Nat.strongRecOn generalizing s with
  | _ n ih =>
      cases s with
      | nil => exact nil
      | cons c w =>
          obtain ⟨hleads, hw⟩ := wellFormed_cons.1 hs
          by_cases hc : code c = '%'.toNat
          · obtain ⟨a, b, r, rfl, ha, hb⟩ := hleads hc
            have hr := ((wellFormed_pct hc).1 hs).2.2
            refine pct c a b r hr hs hc ha hb (ih r.length ?_ hr rfl)
            simp only [List.length_cons] at hn
            omega
          · refine plain c w hw hs hc (ih w.length ?_ hw rfl)
            simp only [List.length_cons] at hn
            omega

end

theorem eq_pct_iff {c : UInt8} : c = chr '%' ↔ code c = '%'.toNat := by
  constructor
  · rintro rfl
    rfl
  · intro h
    exact UInt8.toNat_inj.1 h

/-- The bytes of a well-formed text are those of `Coded`. -/
theorem wellFormed_iff {s : Bytes} : WellFormed s ↔ Triplets s := by
  constructor
  · intro h
    induction h using WellFormed.units with
    | nil => exact .nil
    | plain c w _ _ hc ih => exact .plain (fun heq => hc (eq_pct_iff.1 heq)) trivial ih
    | pct p a b w _ _ hp ha hb ih =>
        obtain rfl := eq_pct_iff.2 hp
        exact .pct ha hb ih
  · intro h
    induction h with
    | nil => exact wellFormed_nil
    | plain hne _ _ ih =>
        exact wellFormed_cons.2 ⟨fun hc => absurd (eq_pct_iff.2 hc) hne, ih⟩
    | pct ha hb _ ih => exact (wellFormed_pct rfl).2 ⟨ha, hb, ih⟩

/-! ### The octet a triplet stands for -/

/-- The value of a hexadecimal digit of either case. -/
def hexValue (c : UInt8) : Nat :=
  if c.toNat ≤ '9'.toNat then c.toNat - '0'.toNat
  else if c.toNat ≤ 'F'.toNat then c.toNat - 'A'.toNat + 10
  else c.toNat - 'a'.toNat + 10

/-- The text with every triplet replaced by its octet. -/
def decoded : Bytes → Bytes
  | p :: a :: b :: w =>
    if p = chr '%' then UInt8.ofNat (16 * hexValue a + hexValue b) :: decoded w
    else p :: decoded (a :: b :: w)
  | s => s

/-- An upper-case digit above nine. -/
def isUpperXdigit (c : UInt8) : Bool := 'A'.toNat ≤ c.toNat && c.toNat ≤ 'F'.toNat

/-- No triplet has an upper-case letter for its second digit. -/
def SecondsNotUpper (s : Bytes) : Prop :=
  ∀ pre a b post, s = pre ++ triplet a b ++ post → isUpperXdigit b = false

theorem decoded_plain {c : UInt8} (h : c ≠ chr '%') (w : Bytes) :
    decoded (c :: w) = c :: decoded w := by
  match w with
  | [] => rfl
  | [_] => rfl
  | a :: b :: w => rw [decoded, if_neg h]

theorem decoded_pct (a b : UInt8) (w : Bytes) :
    decoded (triplet a b ++ w) = UInt8.ofNat (16 * hexValue a + hexValue b) :: decoded w := by
  show decoded (chr '%' :: a :: b :: w) = _
  rw [decoded, if_pos rfl]

theorem secondsNotUpper_nil : SecondsNotUpper [] := by
  intro pre a b post h
  simp [triplet] at h

theorem secondsNotUpper_plain {c : UInt8} (h : c ≠ chr '%') {w : Bytes} :
    SecondsNotUpper (c :: w) ↔ SecondsNotUpper w := by
  constructor
  · intro hs pre a b post hw
    exact hs (c :: pre) a b post (by rw [hw]; rfl)
  · intro hs pre a b post hw
    cases pre with
    | nil =>
        cases hw
        exact absurd rfl h
    | cons d pre =>
        cases hw
        exact hs pre a b post rfl

theorem secondsNotUpper_pct {a b : UInt8} (ha : isXdigit a.toNat = true)
    (hb : isXdigit b.toNat = true) {w : Bytes} :
    SecondsNotUpper (triplet a b ++ w) ↔ isUpperXdigit b = false ∧ SecondsNotUpper w := by
  have hap : a ≠ chr '%' := fun h => code_ne_pct ha (eq_pct_iff.1 h)
  have hbp : b ≠ chr '%' := fun h => code_ne_pct hb (eq_pct_iff.1 h)
  constructor
  · intro hs
    refine ⟨hs [] a b w rfl, ?_⟩
    intro pre a' b' post hw
    exact hs (triplet a b ++ pre) a' b' post (by rw [hw]; simp only [List.append_assoc])
  · intro h
    obtain ⟨hupper, hs⟩ := h
    have htail : SecondsNotUpper (a :: b :: w) :=
      (secondsNotUpper_plain hap).2 ((secondsNotUpper_plain hbp).2 hs)
    intro pre a' b' post hw
    cases pre with
    | nil =>
        cases hw
        exact hupper
    | cons d pre => exact htail pre a' b' post (List.cons.inj hw).2

/-- One digit: an upper-case letter comes out 32 too small. -/
theorem digitValue_eq : ∀ c : UInt8, isXdigit c.toNat = true → hexValue c < 16 ∧
    digitValue c = hexValue c - if isUpperXdigit c then 32 else 0 := by decide +kernel

/-- Two digits: sixteen times 32 is no part of a byte, 32 is. -/
theorem toUtf8Byte_iff {a b : UInt8} (ha : isXdigit a.toNat = true)
    (hb : isXdigit b.toNat = true) :
    toUtf8Byte (a, b) = UInt8.ofNat (16 * hexValue a + hexValue b) ↔ isUpperXdigit b = false := by
  obtain ⟨halt, hva⟩ := digitValue_eq a ha
  obtain ⟨hblt, hvb⟩ := digitValue_eq b hb
  have hbyte (n : Int) (m : Nat) : UInt8.ofInt n = UInt8.ofNat m ↔ n % 256 = m % 256 := by
    rw [UInt8.ofInt, ← UInt8.toNat_inj, UInt8.toNat_ofNat', UInt8.toNat_ofNat']
    omega
  rw [toUtf8Byte, hva, hvb, hbyte]
  clear hva hvb
  push_cast
  cases isUpperXdigit b with
  | false =>
      refine iff_of_true ?_ rfl
      cases isUpperXdigit a <;> simp only [if_true, Bool.false_eq_true, if_false] <;> omega
  | true =>
      refine iff_of_false ?_ (by simp)
      cases isUpperXdigit a <;> simp only [if_true, Bool.false_eq_true, if_false] <;> omega

/-- What decides about a whole text: its triplets one by one. -/
theorem pctDecodeImpl_iff {s : Bytes} (hs : WellFormed s) :
    (pctDecodeImpl s).1 = decoded s ↔ SecondsNotUpper s := by
  induction hs using WellFormed.units with
  | nil => exact iff_of_true rfl secondsNotUpper_nil
  | plain c w _ _ hc ih =>
      have hne : c ≠ chr '%' := fun heq => hc (eq_pct_iff.1 heq)
      rw [pctDecodeImpl_plain hne, decoded_plain hne, secondsNotUpper_plain hne, ← ih]
      exact List.cons_inj_right c
  | pct p a b w _ _ hp ha hb ih =>
      obtain rfl := eq_pct_iff.2 hp
      show (pctDecodeImpl (triplet a b ++ w)).1 = decoded (triplet a b ++ w) ↔
        SecondsNotUpper (triplet a b ++ w)
      rw [pctDecodeImpl_pct ha hb, decoded_pct, secondsNotUpper_pct ha hb, List.cons_eq_cons,
        toUtf8Byte_iff ha hb, ih]

/-- The octets come out, from both overloads and without an error, exactly when
no triplet of the text ends in an upper-case letter. -/
theorem decodesTo_decoded_iff {s : Bytes} (hs : WellFormed s) :
    DecodesTo s (decoded s) ↔ SecondsNotUpper s := by
  obtain ⟨hthrow, hec⟩ := (wellFormed_iff.1 hs).decodes
  rw [← pctDecodeImpl_iff hs]
  constructor
  · intro h
    obtain ⟨h, -⟩ := h
    exact (congrArg Prod.fst h : (pctDecode s).1 = decoded s)
  · intro h
    exact ⟨Prod.ext h hthrow, Prod.ext h hec⟩

/-- A first digit of either case is fine. -/
theorem decodesTo_decoded_first : DecodesTo (ascii "%4a%Ab%B0c") (decoded (ascii "%4a%Ab%B0c")) := by
  have hcoded : WellFormed (ascii "%4a%Ab%B0c") :=
    wellFormed_iff.2 (.pct rfl rfl (.pct rfl rfl (.pct rfl rfl (.plain (by decide) trivial .nil))))
  refine (decodesTo_decoded_iff hcoded).2 ?_
  exact (secondsNotUpper_pct rfl rfl).2 ⟨rfl, (secondsNotUpper_pct rfl rfl).2 ⟨rfl,
    (secondsNotUpper_pct rfl rfl).2 ⟨rfl, (secondsNotUpper_plain (by decide)).2 secondsNotUpper_nil⟩⟩⟩

/-- `%4A` is the letter `J`, and a star is written for it. -/
theorem decodesTo_decoded_upper :
    ¬∀ s : Bytes, WellFormed s → DecodesTo s (decoded s) := by
  intro h
  have hcoded : WellFormed (ascii "%4A") := wellFormed_iff.2 (.pct rfl rfl .nil)
  have hout : (pctDecode (ascii "%4A")).1 = decoded (ascii "%4A") :=
    congrArg Prod.fst (h _ hcoded).1
  have hcode : (pctDecode (ascii "%4A")).1 = ascii "*" := by decide
  have hoctet : decoded (ascii "%4A") = ascii "J" := by decide
  rw [hcode, hoctet] at hout
  exact absurd hout (by decide)

/-! ### Where the decoder stops -/

/-- One byte for each unit: another byte is copied, a triplet gives one octet. -/
inductive Written : Bytes → Bytes → Prop
  | nil : Written [] []
  | plain {c : UInt8} {w out : Bytes} : c ≠ chr '%' → Written w out → Written (c :: w) (c :: out)
  | pct {a b : UInt8} (octet : UInt8) {w out : Bytes} : isXdigit a.toNat = true →
      isXdigit b.toNat = true → Written w out → Written (triplet a b ++ w) (octet :: out)

/-- The percent sign between the two parts is the first that leads no digits. -/
def FirstBad (s pre post : Bytes) : Prop :=
  s = pre ++ chr '%' :: post ∧ ¬LeadsDigits post ∧
    ∀ pre' post', s = pre' ++ chr '%' :: post' → pre'.length < pre.length → LeadsDigits post'

theorem pctDecodeImpl_written {s : Bytes} (hs : Triplets s) : Written s (pctDecodeImpl s).1 := by
  induction hs with
  | nil => exact .nil
  | plain hne _ _ ih =>
      rw [pctDecodeImpl_plain hne]
      exact .plain hne ih
  | pct ha hb _ ih =>
      rw [pctDecodeImpl_pct ha hb]
      exact .pct _ ha hb ih

/-- Neither alternative takes a percent sign without digits, and nothing is
written for it. -/
theorem pctDecodeImpl_bad {post : Bytes} (h : ¬LeadsDigits post) :
    pctDecodeImpl (chr '%' :: post) = ([], false) := by
  have hx : xpair (chr '%' :: post) = none := by
    cases hp : xpair (chr '%' :: post) with
    | none => rfl
    | some m =>
        obtain ⟨⟨a, b⟩, rest⟩ := m
        obtain ⟨heq, ha, hb⟩ := xpair_eq_some hp
        exact absurd ⟨a, b, rest, (List.cons.inj heq).2, ha, hb⟩ h
  have hround : decodeRound (chr '%' :: post) = none := by
    simp only [decodeRound, hx, if_true]
  simp only [pctDecodeImpl, List.length_cons, decodeRounds, hround]
  rfl

/-- A text that is not well-formed is so up to a first bad percent sign. -/
theorem exists_firstBad {s : Bytes} (h : ¬WellFormed s) :
    ∃ pre post, Triplets pre ∧ s = pre ++ chr '%' :: post ∧ ¬LeadsDigits post := by
  induction hn : s.length using Nat.strongRecOn generalizing s with
  | _ n ih =>
      cases s with
      | nil => exact absurd wellFormed_nil h
      | cons c w =>
          simp only [List.length_cons] at hn
          by_cases hc : c = chr '%'
          · subst hc
            by_cases hw : LeadsDigits w
            · -- a triplet: what is bad comes later
              obtain ⟨a, b, r, rfl, ha, hb⟩ := hw
              have hr : ¬WellFormed r := fun hr => h ((wellFormed_pct rfl).2 ⟨ha, hb, hr⟩)
              obtain ⟨pre, post, hpre, rfl, hpost⟩ :=
                ih r.length (by simp only [List.length_cons] at hn; omega) hr rfl
              exact ⟨triplet a b ++ pre, post, .pct ha hb hpre, rfl, hpost⟩
            · exact ⟨[], w, .nil, rfl, hw⟩
          · have hw : ¬WellFormed w := fun hw =>
              h (wellFormed_cons.2 ⟨fun hcode => absurd (eq_pct_iff.2 hcode) hc, hw⟩)
            obtain ⟨pre, post, hpre, rfl, hpost⟩ := ih w.length (by omega) hw rfl
            exact ⟨c :: pre, post, .plain hc trivial hpre, rfl, hpost⟩

/-- Behind a well-formed part there is no earlier one. -/
theorem firstBad_of_triplets {s pre post : Bytes} (hpre : Triplets pre)
    (hs : s = pre ++ chr '%' :: post) (hpost : ¬LeadsDigits post) : FirstBad s pre post := by
  refine ⟨hs, hpost, ?_⟩
  intro pre' post' hs' hlen
  rw [hs] at hs'
  rcases List.append_eq_append_iff.1 hs' with ⟨v, rfl, -⟩ | ⟨v, rfl, htail⟩
  · rw [List.length_append] at hlen
    omega
  · cases v with
    | nil => simp at hlen
    | cons d v =>
        obtain ⟨rfl, rfl⟩ := List.cons.inj htail
        obtain ⟨a, b, r, rfl, ha, hb⟩ := wellFormed_iff.2 hpre pre' (chr '%') v rfl rfl
        exact ⟨a, b, r ++ chr '%' :: post, rfl, ha, hb⟩

/-- All the decoder does, by the text alone. -/
theorem pctDecodeImpl_spec (s : Bytes) :
    (WellFormed s ∧ (pctDecodeImpl s).2 = true ∧ Written s (pctDecodeImpl s).1) ∨
      (¬WellFormed s ∧ (pctDecodeImpl s).2 = false ∧
        ∃ pre post, FirstBad s pre post ∧ Written pre (pctDecodeImpl s).1) := by
  by_cases hs : WellFormed s
  · have hcoded := wellFormed_iff.1 hs
    exact Or.inl ⟨hs, pctDecodeImpl_coded hcoded, pctDecodeImpl_written hcoded⟩
  · obtain ⟨pre, post, hpre, heq, hpost⟩ := exists_firstBad hs
    have hout : pctDecodeImpl s = ((pctDecodeImpl pre).1, false) := by
      rw [heq, pctDecodeImpl_append hpre, pctDecodeImpl_bad hpost, List.append_nil]
    rw [hout]
    exact Or.inr ⟨hs, rfl, pre, post, firstBad_of_triplets hpre heq hpost,
      pctDecodeImpl_written hpre⟩

/-- Errors of the decoder. An error is reported exactly for a percent sign
without its digits; the sink then holds one byte for each unit before the first
such sign, and else one for each unit of the text; the overloads agree. -/
theorem pctDecode_errors (s : Bytes) :
    ((pctDecode s).2 = .error .unexpectedPct ↔ ¬WellFormed s) ∧
      ((pctDecodeEc s).2 = some .unexpectedPct ↔ ¬WellFormed s) ∧
      (pctDecodeEc s).1 = (pctDecode s).1 ∧
      (¬WellFormed s → ∃ pre post, FirstBad s pre post ∧ Written pre (pctDecode s).1) ∧
      (WellFormed s → (pctDecode s).2 = .ok () ∧ (pctDecodeEc s).2 = none ∧
        Written s (pctDecode s).1) := by
  have hbytes : (pctDecode s).1 = (pctDecodeImpl s).1 := rfl
  rcases pctDecodeImpl_spec s with ⟨hs, hfull, hwritten⟩ | ⟨hs, hfull, hwritten⟩
  · have hthrow : (pctDecode s).2 = .ok () := by simp [pctDecode, hfull]
    have hec : (pctDecodeEc s).2 = none := by simp [pctDecodeEc, hfull]
    rw [hthrow, hec, hbytes]
    exact ⟨iff_of_false (by simp) (not_not_intro hs), iff_of_false (by simp) (not_not_intro hs),
      rfl, fun h => absurd hs h, fun _ => ⟨rfl, rfl, hwritten⟩⟩
  · have hthrow : (pctDecode s).2 = .error .unexpectedPct := by simp [pctDecode, hfull]
    have hec : (pctDecodeEc s).2 = some .unexpectedPct := by simp [pctDecodeEc, hfull]
    rw [hthrow, hec, hbytes]
    exact ⟨iff_of_true rfl hs, iff_of_true rfl hs, rfl, fun _ => hwritten, fun h => absurd h hs⟩

end Foxy.Uri
