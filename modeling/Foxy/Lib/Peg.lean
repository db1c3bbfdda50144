import Mathlib.Data.List.Forall2
import Mathlib.Data.List.TakeWhile
import Mathlib.Tactic.Common

/-!
# Foxy.Lib.Peg

Parsing expressions over an arbitrary token type.

An expression maps the input to the input left over, or fails; it never looks
behind. Repetition is greedy, choice is ordered and commits to the first
alternative that succeeds, and a failing sequence leaves the input where it was
(a failure simply has no result here). These are the semantics of a PEG: no
construct ever goes back into an alternative that has succeeded.

The proof devices are properties that every combinator keeps (`Compositional`),
so that a fact about a large grammar is read off rule by rule: `Takes p L`, what
`p` consumes is a word of `L`; its special case `Within p q`, all tokens it
consumes satisfy `q`; and `Local q p`, what `p` does with a text does not depend
on what follows unless that begins with a token out of `q`. `Agrees f D p p'`
compares two expressions, over two types of tokens.
-/

/-- A parsing expression: the remaining input on success, `none` on failure. -/
def Peg (α : Type*) := List α → Option (List α)

namespace Peg

variable {α : Type*}

/-! ### Combinators -/

/-- One token that satisfies `f`. -/
def satisfy (f : α → Bool) : Peg α
  | [] => none
  | c :: s => if f c then some s else none

/-- Exactly the tokens matched one by one by `fs`. -/
def tokens : List (α → Bool) → Peg α
  | [], s => some s
  | f :: fs, s =>
    match satisfy f s with
    | none => none
    | some r => tokens fs r

/-- `p` and then `q`. -/
def seq (p q : Peg α) : Peg α := fun s =>
  match p s with
  | none => none
  | some r => q r

/-- `p`, or `q` where `p` fails. -/
def alt (p q : Peg α) : Peg α := fun s =>
  match p s with
  | none => q s
  | some r => some r

/-- `p` or nothing. -/
def opt (p : Peg α) : Peg α := fun s =>
  match p s with
  | none => some s
  | some r => some r

/-- `p` where `q` does not match. -/
def diff (p q : Peg α) : Peg α := fun s =>
  match q s with
  | none => p s
  | some _ => none

/-- `p` as often as it matches, at most `n` times. -/
def upTo (p : Peg α) : Nat → List α → List α
  | 0, s => s
  | n + 1, s =>
    match p s with
    | none => s
    | some r => upTo p n r

/-- Greedy repetition. Every round of an expression that consumes something
takes a token, so the length of the input bounds the number of rounds. -/
def star (p : Peg α) : Peg α := fun s => some (upTo p s.length s)

/-- At least one `p`. -/
def plus (p : Peg α) : Peg α := seq p (star p)

/-- Exactly `n` times `p`. -/
def times : Nat → Peg α → Peg α
  | 0, _ => fun s => some s
  | n + 1, p => seq p (times n p)

/-- Between `lo` and `hi` times `p`, as many as possible. -/
def between (lo hi : Nat) (p : Peg α) : Peg α :=
  seq (times lo p) fun s => some (upTo p (hi - lo) s)

/-! ### Sequences -/

variable {p p' : Peg α} {s r : List α}

theorem seq_eq_some_iff : seq p p' s = some r ↔ ∃ r₁, p s = some r₁ ∧ p' r₁ = some r := by
  simp only [seq]
  cases p s with
  | none => simp
  | some r₁ => simp

theorem seq_assoc (p p' p'' : Peg α) : seq (seq p p') p'' = seq p (seq p' p'') := by
  funext s
  simp only [seq]
  cases p s <;> rfl

/-! ### Choices -/

/-- What the alternatives do elsewhere does not matter. -/
theorem alt_congr {p₁ p₂ p₁' p₂' : Peg α} (h : p₁ s = p₂ s) (h' : p₁' s = p₂' s) :
    alt p₁ p₁' s = alt p₂ p₂' s := by
  simp only [alt, h, h']

theorem alt_eq_none_iff : alt p p' s = none ↔ p s = none ∧ p' s = none := by
  simp only [alt]
  cases p s <;> simp

/-- One of the alternatives has matched. -/
theorem alt_eq_some (h : alt p p' s = some r) : p s = some r ∨ p' s = some r := by
  simp only [alt] at h
  cases hp : p s with
  | none =>
      rw [hp] at h
      exact Or.inr h
  | some r₁ =>
      rw [hp] at h
      exact Or.inl h

theorem alt_of_none (h : p' s = none) : alt p p' s = p s := by
  simp only [alt, h]
  cases p s <;> rfl

theorem alt_eq_left (h : p s = some r) : alt p p' s = some r := by
  simp only [alt, h]

theorem alt_eq_right (h : p s = none) : alt p p' s = p' s := by
  simp only [alt, h]

theorem alt_assoc (p p' p'' : Peg α) : alt (alt p p') p'' = alt p (alt p' p'') := by
  funext s
  simp only [alt]
  cases p s <;> rfl

/-- A choice between tokens is a token. -/
theorem alt_satisfy (f g : α → Bool) :
    alt (satisfy f) (satisfy g) = satisfy fun c => f c || g c := by
  funext s
  cases s with
  | nil => rfl
  | cons c s => by_cases hc : f c = true <;> simp [alt, satisfy, hc]

/-! ### Expressions that always match -/

/-- `p` matches every input, if only its empty beginning. -/
def Total (p : Peg α) : Prop := ∀ s, ∃ r, p s = some r

theorem total_opt (p : Peg α) : Total (opt p) := by
  intro s
  simp only [opt]
  cases p s <;> exact ⟨_, rfl⟩

theorem total_star (p : Peg α) : Total (star p) := fun _ => ⟨_, rfl⟩

theorem total_seq (h : Total p) (h' : Total p') : Total (seq p p') := by
  intro s
  obtain ⟨r₁, hr₁⟩ := h s
  obtain ⟨r, hr⟩ := h' r₁
  exact ⟨r, seq_eq_some_iff.2 ⟨r₁, hr₁, hr⟩⟩

/-- The last alternative decides. -/
theorem total_alt (p : Peg α) (h : Total p') : Total (alt p p') := by
  intro s
  simp only [alt]
  cases p s with
  | none => exact h s
  | some r => exact ⟨r, rfl⟩

/-! ### What an expression consumes -/

/-- What `p` consumes is a prefix of the input that is a word of `L`. -/
def Takes (p : Peg α) (L : List α → Prop) : Prop :=
  ∀ s r, p s = some r → ∃ w, s = w ++ r ∧ L w

/-- What `p` consumes is a prefix of the input made of tokens that satisfy `q`. -/
def Within (p : Peg α) (q : α → Prop) : Prop :=
  ∀ s r, p s = some r → ∃ w, s = w ++ r ∧ ∀ c ∈ w, q c

/-- `p` consumes at least one token. -/
def Consumes (p : Peg α) : Prop := Takes p (· ≠ [])

/-- The words of `L` can be put one after another. -/
structure Closed (L : List α → Prop) : Prop where
  nil : L []
  append {v w : List α} : L v → L w → L (v ++ w)

variable {q q' : α → Prop} {L L' L'' : List α → Prop}

/-- Words over an alphabet can. -/
theorem closed_all (q : α → Prop) : Closed fun w => ∀ c ∈ w, q c := by
  refine ⟨by simp, ?_⟩
  intro v w hv hw c hc
  rcases List.mem_append.1 hc with hc | hc
  · exact hv c hc
  · exact hw c hc

/-- Any words can. -/
theorem closed_any : Closed fun _ : List α => True := ⟨trivial, fun _ _ => trivial⟩

/-- The longest word of `L` that `s` begins with. -/
structure Longest (L : List α → Prop) (w s : List α) : Prop where
  word : L w
  isPrefix : w <+: s
  longest : ∀ v, L v → v <+: s → v.length ≤ w.length

/-- There is one longest word. -/
theorem Longest.unique {w w' : List α} (h : Longest L w s) (h' : Longest L w' s) : w = w' := by
  have hle := h.longest w' h'.word h'.isPrefix
  have hge := h'.longest w h.word h.isPrefix
  exact (List.prefix_of_prefix_length_le h.isPrefix h'.isPrefix hge).eq_of_length_le hle

/-- A word is the longest one where a token follows that is in no word. -/
theorem Longest.append {w : List α} (hw : L w) (hL : ∀ v, L v → ∀ c ∈ v, q c)
    (hr : ∀ c ∈ r.head?, ¬q c) : Longest L w (w ++ r) := by
  refine ⟨hw, ⟨r, rfl⟩, ?_⟩
  intro v hv hprefix
  obtain ⟨t, ht⟩ := hprefix
  rcases List.append_eq_append_iff.1 ht with ⟨u, rfl, -⟩ | ⟨u, rfl, htail⟩
  · simp
  · cases u with
    | nil => simp
    | cons c u => exact absurd (hL _ hv c (by simp)) (hr c (by rw [htail]; rfl))

theorem Takes.mono (h : Takes p L) (hL : ∀ w, L w → L' w) : Takes p L' := by
  intro s r hp
  obtain ⟨w, hs, hw⟩ := h s r hp
  exact ⟨w, hs, hL w hw⟩

/-- What a complete match has taken is the whole text. -/
theorem Takes.whole (h : Takes p L) (hs : p s = some []) : L s := by
  obtain ⟨w, hw, hL⟩ := h s [] hs
  rw [List.append_nil] at hw
  exact hw ▸ hL

/-- One token is consumed. -/
theorem satisfy_eq_some {f : α → Bool} : satisfy f s = some r ↔ ∃ c, s = c :: r ∧ f c = true := by
  cases s with
  | nil => simp [satisfy]
  | cons c s =>
      by_cases hc : f c = true
      · simp [satisfy, hc]
      · simp only [satisfy, hc, List.cons.injEq]
        refine iff_of_false (by simp) ?_
        rintro ⟨c', ⟨rfl, -⟩, hf⟩
        exact hc hf

theorem takes_satisfy {f : α → Bool} (hf : ∀ c, f c = true → L [c]) : Takes (satisfy f) L := by
  intro s r h
  obtain ⟨c, rfl, hc⟩ := satisfy_eq_some.1 h
  exact ⟨[c], rfl, hf c hc⟩

/-- A word matched token by token. -/
theorem tokens_eq_some {fs : List (α → Bool)} {s r : List α} :
    tokens fs s = some r ↔ ∃ w, s = w ++ r ∧ List.Forall₂ (fun f c => f c = true) fs w := by
  constructor
  · intro h
    induction fs generalizing s with
    | nil => exact ⟨[], by simpa [tokens] using h, .nil⟩
    | cons f fs ih =>
        cases s with
        | nil => simp [tokens, satisfy] at h
        | cons c s =>
            by_cases hc : f c = true
            · simp only [tokens, satisfy, hc, if_true] at h
              obtain ⟨w, rfl, hw⟩ := ih h
              exact ⟨c :: w, rfl, .cons hc hw⟩
            · simp [tokens, satisfy, hc] at h
  · intro h
    obtain ⟨w, rfl, hw⟩ := h
    induction hw with
    | nil => rfl
    | cons hc _ ih =>
        simp only [List.cons_append, tokens, satisfy, hc, if_true]
        exact ih

/-- One word after another. -/
theorem tokens_singleton (f : α → Bool) : tokens [f] = satisfy f := by
  funext s
  simp only [tokens]
  cases satisfy f s <;> rfl

theorem takes_seq_of (h : Takes p L) (h' : Takes p' L')
    (hL : ∀ v w, L v → L' w → L'' (v ++ w)) : Takes (seq p p') L'' := by
  intro s r hs
  obtain ⟨r₁, hp, hp'⟩ := seq_eq_some_iff.1 hs
  obtain ⟨v, rfl, hv⟩ := h s r₁ hp
  obtain ⟨w, rfl, hw⟩ := h' r₁ r hp'
  exact ⟨v ++ w, by simp, hL v w hv hw⟩

theorem takes_seq (hL : Closed L) (h : Takes p L) (h' : Takes p' L) : Takes (seq p p') L :=
  takes_seq_of h h' fun _ _ => hL.append

theorem takes_alt (h : Takes p L) (h' : Takes p' L) : Takes (alt p p') L := by
  intro s r hs
  rcases alt_eq_some hs with hs | hs
  · exact h s r hs
  · exact h' s r hs

theorem takes_empty (hL : Closed L) : Takes (fun s => some s) L := by
  intro s r hs
  obtain rfl : s = r := by simpa using hs
  exact ⟨[], rfl, hL.nil⟩

theorem takes_opt_of (hnil : L []) (h : Takes p L) : Takes (opt p) L := by
  intro s r hs
  simp only [opt] at hs
  cases hp : p s with
  | none =>
      rw [hp] at hs
      obtain rfl : s = r := by simpa using hs
      exact ⟨[], rfl, hnil⟩
  | some r₁ =>
      rw [hp] at hs
      obtain rfl : r₁ = r := by simpa using hs
      exact h s r₁ hp

theorem takes_opt (hL : Closed L) (h : Takes p L) : Takes (opt p) L := takes_opt_of hL.nil h

/-- Bounded repetition consumes one word after another. -/
theorem takes_upTo (hL : Closed L) (h : Takes p L) :
    ∀ n, Takes (fun s => some (upTo p n s)) L
  | 0 => takes_empty hL
  | n + 1 => by
      intro s r hs
      simp only [upTo] at hs
      cases hp : p s with
      | none =>
          rw [hp] at hs
          exact takes_empty hL s r hs
      | some r₁ =>
          rw [hp] at hs
          obtain ⟨v, rfl, hv⟩ := h s r₁ hp
          obtain ⟨w, rfl, hw⟩ := takes_upTo hL h n r₁ r hs
          exact ⟨v ++ w, by simp, hL.append hv hw⟩

/-- Of tokens it takes at most as many as it may. -/
theorem takes_upTo_satisfy (f : α → Bool) (n : Nat) :
    Takes (fun s => some (upTo (satisfy f) n s)) fun w => w.length ≤ n ∧ ∀ c ∈ w, f c = true := by
  induction n with
  | zero =>
      intro s r hs
      obtain rfl : s = r := Option.some.inj hs
      exact ⟨[], rfl, by simp⟩
  | succ n ih =>
      intro s r hs
      simp only [upTo] at hs
      cases hp : satisfy f s with
      | none =>
          rw [hp] at hs
          obtain rfl : s = r := Option.some.inj hs
          exact ⟨[], rfl, by simp⟩
      | some r₁ =>
          rw [hp] at hs
          obtain ⟨c, rfl, hc⟩ := satisfy_eq_some.1 hp
          obtain ⟨w, rfl, hlen, hw⟩ := ih r₁ r hs
          exact ⟨c :: w, rfl, Nat.succ_le_succ hlen, List.forall_mem_cons.2 ⟨hc, hw⟩⟩

theorem takes_star (hL : Closed L) (h : Takes p L) : Takes (star p) L := by
  intro s r hs
  exact takes_upTo hL h s.length s r hs

theorem consumes_satisfy (f : α → Bool) : Consumes (satisfy f) := takes_satisfy (by simp)

theorem consumes_tokens {fs : List (α → Bool)} (hfs : fs ≠ []) : Consumes (tokens fs) := by
  intro s r h
  obtain ⟨w, rfl, hw⟩ := tokens_eq_some.1 h
  refine ⟨w, rfl, ?_⟩
  rintro rfl
  cases hw
  exact hfs rfl

/-- The first part consumes something, and the second goes on from there. -/
theorem consumes_seq (h : Consumes p) (h' : Takes p' L) : Consumes (seq p p') :=
  takes_seq_of h h' fun _ _ hv _ hnil => hv (List.append_eq_nil_iff.1 hnil).1

/-! ### Properties that are read off rule by rule -/

/-- A property of expressions that every combinator keeps. The body of a
repetition consumes something, as it does in every grammar of use. -/
structure Compositional (P : Peg α → Prop) : Prop where
  empty : P fun s => some s
  seq {p p' : Peg α} : P p → P p' → P (seq p p')
  alt {p p' : Peg α} : P p → P p' → P (alt p p')
  opt {p : Peg α} : P p → P (opt p)
  star {p : Peg α} : Consumes p → P p → P (star p)
  upTo {p : Peg α} (n : Nat) : P p → P fun s => some (upTo p n s)

section
variable {P : Peg α → Prop} (hP : Compositional P)
include hP

theorem Compositional.plus (hc : Consumes p) (h : P p) : P (plus p) := hP.seq h (hP.star hc h)

theorem Compositional.times (h : P p) (n : Nat) : P (times n p) := by
  induction n with
  | zero => exact hP.empty
  | succ n ih => exact hP.seq h ih

theorem Compositional.between (lo hi : Nat) (h : P p) : P (between lo hi p) :=
  hP.seq (hP.times h lo) (hP.upTo (hi - lo) h)

end

theorem takes_compositional (hL : Closed L) : Compositional fun p : Peg α => Takes p L where
  empty := takes_empty hL
  seq := takes_seq hL
  alt := takes_alt
  opt := takes_opt hL
  star := fun _ => takes_star hL
  upTo := fun n h => takes_upTo hL h n

/-! ### The alphabet of an expression -/

theorem Within.mono (h : Within p q) (hq : ∀ c, q c → q' c) : Within p q' :=
  Takes.mono h fun _ hw c hc => hq c (hw c hc)

theorem Within.all (h : Within p q) (hs : p s = some []) : ∀ c ∈ s, q c := Takes.whole h hs

theorem within_satisfy {f : α → Bool} (hf : ∀ c, f c = true → q c) : Within (satisfy f) q :=
  takes_satisfy fun c hc => by simpa using hf c hc

theorem within_alt (h : Within p q) (h' : Within p' q) : Within (alt p p') q := takes_alt h h'

theorem within_star (h : Within p q) : Within (star p) q := takes_star (closed_all q) h

/-! ### Greedy repetition -/

theorem Consumes.nil (hc : Consumes p) : p [] = none := by
  cases hp : p [] with
  | none => rfl
  | some r =>
      obtain ⟨w, hw, hne⟩ := hc [] r hp
      exact absurd (List.append_eq_nil_iff.1 hw.symm).1 hne

/-- An expression that has to consume a token fails where there is none of its
alphabet. -/
theorem Consumes.eq_none (hc : Consumes p) (h : Within p q) (hs : ∀ c ∈ s.head?, ¬q c) :
    p s = none := by
  cases hp : p s with
  | none => rfl
  | some r =>
      obtain ⟨w, rfl, hw⟩ := h s r hp
      cases w with
      | nil =>
          obtain ⟨v, hv, hne⟩ := hc _ r hp
          exact absurd (List.self_eq_append_left.1 hv) hne
      | cons c w => exact absurd (hw c List.mem_cons_self) (hs c rfl)

/-- More rounds than there are tokens change nothing. -/
theorem upTo_of_le (hc : Consumes p) {m n : Nat} (hm : s.length ≤ m) (hn : s.length ≤ n) :
    upTo p m s = upTo p n s := by
  induction m generalizing n s with
  | zero =>
      obtain rfl : s = [] := List.length_eq_zero_iff.1 (by omega)
      cases n with
      | zero => rfl
      | succ n => simp [upTo, hc.nil]
  | succ m ih =>
      cases n with
      | zero =>
          obtain rfl : s = [] := List.length_eq_zero_iff.1 (by omega)
          simp [upTo, hc.nil]
      | succ n =>
          simp only [upTo]
          cases hp : p s with
          | none => rfl
          | some r =>
              obtain ⟨w, rfl, hne⟩ := hc s r hp
              have hlen : 0 < w.length := List.length_pos_iff.2 hne
              rw [List.length_append] at hm hn
              exact ih (by omega) (by omega)

/-- One round at a time. -/
theorem star_eq (hc : Consumes p) (s : List α) :
    star p s = match p s with
      | none => some s
      | some r => star p r := by
  cases hp : p s with
  | none =>
      cases s with
      | nil => rfl
      | cons c s => simp [star, upTo, hp]
  | some r =>
      obtain ⟨w, rfl, hne⟩ := hc s r hp
      have hlen : 0 < w.length := List.length_pos_iff.2 hne
      obtain ⟨n, hn⟩ : ∃ n, (w ++ r).length = n + 1 := ⟨(w ++ r).length - 1, by simp; omega⟩
      have hr : r.length ≤ n := by
        rw [List.length_append] at hn
        omega
      simp only [star, hn, upTo, hp]
      rw [upTo_of_le hc hr (Nat.le_refl _)]

theorem star_of_none (hc : Consumes p) (h : p s = none) : star p s = some s := by
  rw [star_eq hc, h]

theorem star_of_some (hc : Consumes p) (h : p s = some r) : star p s = star p r := by
  rw [star_eq hc, h]

/-- Of tokens it takes all there are. -/
theorem star_satisfy (f : α → Bool) (s : List α) : star (satisfy f) s = some (s.dropWhile f) := by
  induction s with
  | nil => rfl
  | cons c s ih =>
      by_cases hc : f c = true
      · have hone : satisfy f (c :: s) = some s := if_pos hc
        rw [star_of_some (consumes_satisfy f) hone, ih, List.dropWhile_cons_of_pos hc]
      · have hnone : satisfy f (c :: s) = none := if_neg hc
        rw [star_of_none (consumes_satisfy f) hnone, List.dropWhile_cons_of_neg hc]

/-- One token or more of a kind, to the end. -/
theorem plus_satisfy_complete {f : α → Bool} :
    plus (satisfy f) s = some [] ↔ s ≠ [] ∧ ∀ c ∈ s, f c = true := by
  constructor
  · intro h
    obtain ⟨r, hone, hrest⟩ := seq_eq_some_iff.1 h
    obtain ⟨c, rfl, hc⟩ := satisfy_eq_some.1 hone
    rw [star_satisfy, Option.some.injEq, List.dropWhile_eq_nil_iff] at hrest
    exact ⟨List.cons_ne_nil _ _, List.forall_mem_cons.2 ⟨hc, hrest⟩⟩
  · intro h
    obtain ⟨hne, hall⟩ := h
    cases s with
    | nil => exact absurd rfl hne
    | cons c s =>
        obtain ⟨hc, hrest⟩ := List.forall_mem_cons.1 hall
        refine seq_eq_some_iff.2 ⟨s, satisfy_eq_some.2 ⟨c, rfl, hc⟩, ?_⟩
        rw [star_satisfy, List.dropWhile_eq_nil_iff.2 hrest]

/-! ### Bounded repetitions -/

theorem between_zero_one (p : Peg α) (s : List α) : between 0 1 p s = some ((p s).getD s) := by
  simp only [between, times, seq, upTo, Nat.sub_zero]
  cases p s <;> rfl

/-- A repetition of tokens takes all it finds, if there is room for them. -/
theorem upTo_satisfy {f : α → Bool} {n : Nat} {w : List α} (hw : ∀ c ∈ w, f c = true)
    (hn : w.length ≤ n) (hr : ∀ c ∈ r.head?, f c = false) : upTo (satisfy f) n (w ++ r) = r := by
  induction w generalizing n with
  | nil =>
      have hnone : satisfy f r = none := by
        cases r with
        | nil => rfl
        | cons c r => simp [satisfy, hr c rfl]
      cases n with
      | zero => rfl
      | succ n => simp only [List.nil_append, upTo, hnone]
  | cons c w ih =>
      obtain ⟨hc, hw⟩ := List.forall_mem_cons.1 hw
      cases n with
      | zero => simp at hn
      | succ n =>
          simp only [List.cons_append, upTo, satisfy, hc, if_true]
          exact ih hw (by simpa using hn)

/-! ### Locality -/

/-- What `p` does with a text it also does with that text and `t` behind it,
unless `t` begins with a token out of `q`. -/
def Local (q : α → Prop) (p : Peg α) : Prop :=
  ∀ w t, (∀ c ∈ t.head?, ¬q c) → p (w ++ t) = (p w).map (· ++ t)

theorem Local.mono {q q' : α → Prop} {p : Peg α} (h : Local q p) (hq : ∀ c, q c → q' c) :
    Local q' p :=
  fun w t ht => h w t fun c hc hqc => ht c hc (hq c hqc)

theorem local_satisfy {f : α → Bool} (hf : ∀ c, f c = true → q c) : Local q (satisfy f) := by
  intro w t ht
  cases w with
  | nil =>
      cases t with
      | nil => rfl
      | cons c t =>
          have hc : ¬f c = true := fun h => ht c rfl (hf c h)
          simp [satisfy, hc]
  | cons c w =>
      by_cases hc : f c = true <;> simp [satisfy, hc]

theorem local_tokens {fs : List (α → Bool)} (hf : ∀ f ∈ fs, ∀ c, f c = true → q c) :
    Local q (tokens fs) := by
  induction fs with
  | nil =>
      intro w t _
      rfl
  | cons f fs ih =>
      intro w t ht
      have hone := local_satisfy (hf f List.mem_cons_self) w t ht
      simp only [tokens, hone]
      cases satisfy f w with
      | none => rfl
      | some r => exact ih (fun g hg => hf g (List.mem_cons_of_mem _ hg)) r t ht

theorem local_upTo (h : Local q p) (n : Nat) : Local q fun s => some (upTo p n s) := by
  intro w t ht
  simp only [Option.map_some, Option.some.injEq]
  induction n generalizing w with
  | zero => rfl
  | succ n ih =>
      simp only [upTo, h w t ht]
      cases p w with
      | none => rfl
      | some r => exact ih r

theorem local_star (hc : Consumes p) (h : Local q p) : Local q (star p) := by
  intro w t ht
  have hbound := local_upTo h (w ++ t).length w t ht
  simp only [Option.map_some, Option.some.injEq] at hbound
  simp only [star, Option.map_some, Option.some.injEq, hbound]
  rw [upTo_of_le hc (by simp) (Nat.le_refl _)]

/-- A local expression before a text that begins with none of its tokens: it leaves
that text exactly if it reads all that stands in front of it. -/
theorem Local.leaves {w t : List α} (h : Local q p) (ht : ∀ c ∈ t.head?, ¬q c) :
    p (w ++ t) = some t ↔ p w = some [] := by
  rw [h w t ht]
  constructor
  · intro hw
    obtain ⟨r, hr, heq⟩ := Option.map_eq_some_iff.1 hw
    rw [hr, List.append_left_eq_self.1 heq]
  · intro hw
    rw [hw]
    rfl

/-- A sequence reads a text to its end exactly if the text can be cut in two for
its halves, provided that the first half leaves what the second can read. -/
theorem seq_complete (htakes : Takes p L)
    (hleaves : ∀ w t, p' t = some [] → (p (w ++ t) = some t ↔ p w = some [])) :
    seq p p' s = some [] ↔ ∃ w t, s = w ++ t ∧ p w = some [] ∧ p' t = some [] := by
  constructor
  · intro h
    obtain ⟨t, hp, hp'⟩ := seq_eq_some_iff.1 h
    obtain ⟨w, rfl, -⟩ := htakes s t hp
    exact ⟨w, t, rfl, (hleaves w t hp').1 hp, hp'⟩
  · intro h
    obtain ⟨w, t, rfl, hw, ht⟩ := h
    exact seq_eq_some_iff.2 ⟨t, (hleaves w t ht).2 hw, ht⟩

theorem local_compositional (q : α → Prop) : Compositional (Local q) where
  empty := fun w t _ => rfl
  seq := by
    intro p p' h h' w t ht
    simp only [seq, h w t ht]
    cases p w with
    | none => rfl
    | some r => exact h' r t ht
  alt := by
    intro p p' h h' w t ht
    simp only [alt, h w t ht]
    cases p w with
    | none => exact h' w t ht
    | some r => rfl
  opt := by
    intro p h w t ht
    simp only [opt, h w t ht]
    cases p w <;> rfl
  star := local_star
  upTo := fun n h => local_upTo h n

/-! ### Expressions over two token types -/

section
variable {β : Type*} {f : α → β} {D : α → Prop}

/-- On texts over `D`, `p'` does with the image of a text what `p` does with the
text, and what is left is again a text over `D`. -/
def Agrees (f : α → β) (D : α → Prop) (p : Peg α) (p' : Peg β) : Prop :=
  ∀ s, (∀ c ∈ s, D c) → p' (s.map f) = (p s).map (List.map f) ∧ ∀ r ∈ p s, ∀ c ∈ r, D c

variable {p₁ p₂ : Peg α} {p₁' p₂' : Peg β}

theorem agrees_empty : Agrees f D (fun s => some s) fun s => some s := by
  intro s hs
  refine ⟨rfl, ?_⟩
  rintro r ⟨⟩
  exact hs

theorem agrees_satisfy {g : α → Bool} {g' : β → Bool} (h : ∀ c, D c → g' (f c) = g c) :
    Agrees f D (satisfy g) (satisfy g') := by
  intro s hs
  cases s with
  | nil => exact ⟨rfl, by simp [satisfy]⟩
  | cons c s =>
      have hc := h c (hs c List.mem_cons_self)
      by_cases hg : g c = true
      · simp only [List.map_cons, satisfy, hc, hg, if_true, Option.map_some]
        refine ⟨trivial, ?_⟩
        rintro r ⟨⟩
        exact fun d hd => hs d (List.mem_cons_of_mem _ hd)
      · simp [satisfy, hc, hg]

theorem agrees_seq (h₁ : Agrees f D p₁ p₁') (h₂ : Agrees f D p₂ p₂') :
    Agrees f D (seq p₁ p₂) (seq p₁' p₂') := by
  intro s hs
  obtain ⟨heq, hleft⟩ := h₁ s hs
  simp only [seq, heq]
  cases hp : p₁ s with
  | none => simp
  | some r => exact h₂ r (hleft r hp)

theorem agrees_alt (h₁ : Agrees f D p₁ p₁') (h₂ : Agrees f D p₂ p₂') :
    Agrees f D (alt p₁ p₂) (alt p₁' p₂') := by
  intro s hs
  obtain ⟨heq, hleft⟩ := h₁ s hs
  simp only [alt, heq]
  cases hp : p₁ s with
  | none => exact h₂ s hs
  | some r =>
      refine ⟨rfl, ?_⟩
      rintro t ⟨⟩
      exact hleft r hp

theorem agrees_opt (h : Agrees f D p₁ p₁') : Agrees f D (opt p₁) (opt p₁') := by
  intro s hs
  obtain ⟨heq, hleft⟩ := h s hs
  simp only [opt, heq]
  cases hp : p₁ s with
  | none => exact agrees_empty s hs
  | some r =>
      refine ⟨rfl, ?_⟩
      rintro t ⟨⟩
      exact hleft r hp

theorem agrees_upTo (h : Agrees f D p₁ p₁') (n : Nat) :
    Agrees f D (fun s => some (upTo p₁ n s)) fun s => some (upTo p₁' n s) := by
  induction n with
  | zero => exact agrees_empty
  | succ n ih =>
      intro s hs
      obtain ⟨heq, hleft⟩ := h s hs
      simp only [upTo, heq]
      cases hp : p₁ s with
      | none => exact agrees_empty s hs
      | some r => exact ih r (hleft r hp)

/-- The image of a text is as long as the text. -/
theorem agrees_star (h : Agrees f D p₁ p₁') : Agrees f D (star p₁) (star p₁') := by
  intro s hs
  simp only [star, List.length_map]
  exact agrees_upTo h s.length s hs

theorem agrees_plus (h : Agrees f D p₁ p₁') : Agrees f D (plus p₁) (plus p₁') :=
  agrees_seq h (agrees_star h)

theorem agrees_times (h : Agrees f D p₁ p₁') (n : Nat) :
    Agrees f D (times n p₁) (times n p₁') := by
  induction n with
  | zero => exact agrees_empty
  | succ n ih => exact agrees_seq h ih

theorem agrees_between (h : Agrees f D p₁ p₁') (lo hi : Nat) :
    Agrees f D (between lo hi p₁) (between lo hi p₁') :=
  agrees_seq (agrees_times h lo) (agrees_upTo h (hi - lo))

theorem agrees_tokens {gs : List (α → Bool)} {gs' : List (β → Bool)}
    (h : List.Forall₂ (fun g g' => ∀ c, D c → g' (f c) = g c) gs gs') :
    Agrees f D (tokens gs) (tokens gs') := by
  induction h with
  | nil => exact agrees_empty
  | cons hg _ ih => exact agrees_seq (agrees_satisfy hg) ih

end

/-! ### Searching -/

/-- Anything that is not `q`, repeated, and then `q`: this finds `q` wherever it
occurs. -/
theorem isSome_search {f : α → Bool} (hf : ∀ c, f c = true) (q : Peg α) (s : List α) :
    (seq (star (diff (satisfy f) q)) q s).isSome ↔ ∃ pre t, s = pre ++ t ∧ (q t).isSome := by
  show (q (upTo (diff (satisfy f) q) s.length s)).isSome ↔ _
  induction s with
  | nil =>
      constructor
      · intro h
        exact ⟨[], [], rfl, h⟩
      · intro h
        obtain ⟨pre, t, hs, ht⟩ := h
        rwa [(List.append_eq_nil_iff.1 hs.symm).2] at ht
  | cons c s ih =>
      simp only [List.length_cons, upTo, diff]
      cases hq : q (c :: s) with
      | some r => exact iff_of_true (by simp [hq]) ⟨[], c :: s, rfl, by simp [hq]⟩
      | none =>
          simp only [satisfy, hf, if_true, ih]
          constructor
          · intro h
            obtain ⟨pre, t, rfl, ht⟩ := h
            exact ⟨c :: pre, t, rfl, ht⟩
          · intro h
            obtain ⟨pre, t, hs, ht⟩ := h
            cases pre with
            | nil =>
                rw [List.nil_append] at hs
                simp [← hs, hq] at ht
            | cons b pre => exact ⟨pre, t, (List.cons.inj hs).2, ht⟩

end Peg
