import Mathlib.Data.List.TakeWhile
import Foxy.Uri.DottedQuads

/-!
# Foxy.Uri.Literals

What `ip_v6_address` of `foxy/uri.hpp` accepts, read as a 128-bit address.

An address is written as groups of hexadecimal digits between colons, the last
two possibly as an IPv4 address, and one run of groups may be left out for `::`.
Eight of the nine alternatives take nothing else. The fifth has its tail the
other way round, and with an IPv4 address in it that is no longer the last
element.
-/

namespace Foxy.Uri

open Peg X3

/-! ### Written addresses -/

/-- What stands between colons: groups, and behind them at most one IPv4 address. -/
structure Elements where
  groups : List HexGroup
  last : Option DottedQuad

namespace Elements

def pieces (e : Elements) : List Bytes :=
  e.groups.map HexGroup.text ++ (e.last.map DottedQuad.text).toList

/-- Single colons separate the elements. -/
def text (e : Elements) : Bytes := [chr ':'].intercalate e.pieces

/-- An IPv4 address counts as two groups. -/
def count (e : Elements) : Nat := e.groups.length + 2 * e.last.toList.length

end Elements

/-- A written address: eight groups, or at most seven around one `::`. -/
inductive IpV6Form
  | whole (e : Elements) (h : e.count = 8)
  | elided (pre : List HexGroup) (post : Elements) (h : pre.length + post.count ≤ 7)

def IpV6Form.text : IpV6Form → Bytes
  | .whole e _ => e.text
  | .elided pre post _ => [chr ':'].intercalate (pre.map HexGroup.text) ++ ascii "::" ++ post.text

/-! ### The address -/

/-- The number a string of hexadecimal digits stands for. -/
def hexadecimalValue (w : Bytes) : Nat := w.foldl (fun n c => 16 * n + hexValue c) 0

def HexGroup.word (g : HexGroup) : Nat := hexadecimalValue g.text

/-- Two octets a word. -/
def DottedQuad.words (q : DottedQuad) : List Nat :=
  [256 * decimalValue q.a.text + decimalValue q.b.text,
    256 * decimalValue q.c.text + decimalValue q.d.text]

def Elements.words (e : Elements) : List Nat :=
  e.groups.map HexGroup.word ++ e.last.toList.flatMap DottedQuad.words

/-- The eight words, with zeros for what `::` leaves out. -/
def IpV6Form.words : IpV6Form → List Nat
  | .whole e _ => e.words
  | .elided pre post _ =>
    pre.map HexGroup.word ++ List.replicate (8 - (pre.length + post.count)) 0 ++ post.words

/-- A 128-bit address: eight words of 16 bits. -/
@[ext]
structure Address where
  words : List Nat
  length_eq : words.length = 8
  lt : ∀ w ∈ words, w < 2 ^ 16

theorem hexadecimal_lt {w : Bytes} (hw : ∀ c ∈ w, isXdigit c.toNat = true) {n k : Nat}
    (hn : n < 16 ^ k) : w.foldl (fun n c => 16 * n + hexValue c) n < 16 ^ (k + w.length) := by
  induction w generalizing n k with
  | nil => exact hn
  | cons c w ih =>
      obtain ⟨hc, hw⟩ := List.forall_mem_cons.1 hw
      have hdigit := (digitValue_eq c hc).1
      have hnext : 16 * n + hexValue c < 16 ^ (k + 1) := by
        rw [Nat.pow_succ]
        omega
      have hrest := ih hw hnext
      rwa [Nat.add_right_comm] at hrest

theorem HexGroup.word_lt (g : HexGroup) : g.word < 2 ^ 16 := by
  have h : g.word < 16 ^ (0 + g.text.length) := hexadecimal_lt g.digits (by decide)
  have hle : 16 ^ (0 + g.text.length) ≤ 16 ^ 4 :=
    Nat.pow_le_pow_right (by decide) (by have := g.length_le; omega)
  exact Nat.lt_of_lt_of_le h hle

/-- The numerals of the grammar are those the octets stand for. -/
theorem DecOctet.isOctet (o : DecOctet) : IsOctet o.text := by
  obtain ⟨w, hw, hlongest⟩ := decOctet_longest (decOctet_text o)
  rw [List.append_nil] at hw
  rw [hw]
  exact hlongest.word

theorem DottedQuad.words_lt (q : DottedQuad) : ∀ w ∈ q.words, w < 2 ^ 16 := by
  have ha := q.a.isOctet.value_le
  have hb := q.b.isOctet.value_le
  have hc := q.c.isOctet.value_le
  have hd := q.d.isOctet.value_le
  intro w hw
  simp only [words, List.mem_cons, List.not_mem_nil, or_false] at hw
  rcases hw with rfl | rfl <;> omega

theorem Elements.words_lt (e : Elements) : ∀ w ∈ e.words, w < 2 ^ 16 := by
  intro w hw
  rcases List.mem_append.1 hw with hw | hw
  · obtain ⟨g, -, rfl⟩ := List.mem_map.1 hw
    exact g.word_lt
  · obtain ⟨q, -, hq⟩ := List.mem_flatMap.1 hw
    exact q.words_lt w hq

theorem Elements.length_words (e : Elements) : e.words.length = e.count := by
  obtain ⟨groups, last⟩ := e
  cases last with
  | none => simp [words, count]
  | some q => simp [words, count, DottedQuad.words]

/-- The address a form stands for. -/
def IpV6Form.address (f : IpV6Form) : Address where
  words := f.words
  length_eq := by
    cases f with
    | whole e h => rw [words, e.length_words, h]
    | elided pre post h =>
        simp only [words, List.length_append, List.length_map, List.length_replicate,
          post.length_words]
        omega
  lt := by
    cases f with
    | whole e h => exact e.words_lt
    | elided pre post h =>
        intro w hw
        rcases List.mem_append.1 hw with hw | hw
        · rcases List.mem_append.1 hw with hw | hw
          · obtain ⟨g, -, rfl⟩ := List.mem_map.1 hw
            exact g.word_lt
          · rw [(List.mem_replicate.1 hw).2]
            decide
        · exact post.words_lt w hw

/-- `a` is a way to write the address `x`. -/
def Denotes (a : Bytes) (x : Address) : Prop := ∃ f : IpV6Form, f.text = a ∧ f.address = x

/-! ### A text has one reading -/

/-- The words of what stands between two colons. -/
def pieceWords (p : Bytes) : List Nat :=
  match p.splitOn (chr '.') with
  | [a, b, c, d] => [256 * decimalValue a + decimalValue b, 256 * decimalValue c + decimalValue d]
  | _ => [hexadecimalValue p]

/-- The words of a text. The pieces before the first and behind the last empty one
are what is written out. -/
def readWords (a : Bytes) : List Nat :=
  let pieces := a.splitOn (chr ':')
  let front := (pieces.takeWhile (!·.isEmpty)).flatMap pieceWords
  let back := (pieces.reverse.takeWhile (!·.isEmpty)).reverse.flatMap pieceWords
  if [] ∈ pieces then front ++ List.replicate (8 - (front.length + back.length)) 0 ++ back
  else front

theorem HexGroup.notMem (g : HexGroup) {c : UInt8} (hc : isXdigit c.toNat = false) : c ∉ g.text := by
  intro hmem
  rw [g.digits c hmem] at hc
  cases hc

theorem HexGroup.text_ne_nil (g : HexGroup) : g.text ≠ [] := by
  intro h
  have := g.length_pos
  rw [h] at this
  exact absurd this (by decide)

theorem DecOctet.notMem (o : DecOctet) {c : UInt8} (hc : isDigit c.toNat = false) : c ∉ o.text := by
  intro hmem
  rw [o.isOctet.digits c hmem] at hc
  cases hc

theorem pieceWords_group (g : HexGroup) : pieceWords g.text = [g.word] := by
  rw [pieceWords, List.splitOn_eq_singleton (g.notMem (by decide))]
  rfl

theorem DottedQuad.splitOn_text (q : DottedQuad) :
    q.text.splitOn (chr '.') = [q.a.text, q.b.text, q.c.text, q.d.text] := by
  have hdot (o : DecOctet) : chr '.' ∉ o.text := o.notMem (by decide)
  rw [text, tail, List.splitOn_append_cons_self_of_not_mem (hdot _),
    List.splitOn_append_cons_self_of_not_mem (hdot _),
    List.splitOn_append_cons_self_of_not_mem (hdot _), List.splitOn_eq_singleton (hdot _)]

theorem pieceWords_quad (q : DottedQuad) : pieceWords q.text = q.words := by
  rw [pieceWords, q.splitOn_text]
  rfl

theorem DottedQuad.colon_notMem (q : DottedQuad) : chr ':' ∉ q.text := by
  have hq := ipV4Address_quad q (r := []) (by simp [NotHex])
  rw [List.append_nil] at hq
  exact fun hmem => ipV4Address_within.all hq _ hmem (by decide)

theorem DottedQuad.text_ne_nil (q : DottedQuad) : q.text ≠ [] := by
  simp [text, tail]

/-- A piece of an address: it is there, and no colon is in it. -/
def IsPiece (p : Bytes) : Prop := p ≠ [] ∧ chr ':' ∉ p

theorem HexGroup.isPiece (g : HexGroup) : IsPiece g.text := ⟨g.text_ne_nil, g.notMem (by decide)⟩

theorem Elements.isPiece (e : Elements) : ∀ p ∈ e.pieces, IsPiece p := by
  intro p hp
  rcases List.mem_append.1 hp with hp | hp
  · obtain ⟨g, -, rfl⟩ := List.mem_map.1 hp
    exact g.isPiece
  · obtain ⟨q, -, rfl⟩ := Option.map_eq_some_iff.1 (Option.mem_toList.1 hp)
    exact ⟨q.text_ne_nil, q.colon_notMem⟩

theorem groups_words (gs : List HexGroup) :
    (gs.map HexGroup.text).flatMap pieceWords = gs.map HexGroup.word := by
  rw [List.flatMap_map, List.map_eq_flatMap]
  exact congrArg (gs.flatMap ·) (funext pieceWords_group)

theorem Elements.pieces_words (e : Elements) : e.pieces.flatMap pieceWords = e.words := by
  obtain ⟨groups, last⟩ := e
  rw [pieces, List.flatMap_append, groups_words]
  cases last with
  | none => rfl
  | some q =>
      show _ ++ (pieceWords q.text ++ []) = _
      rw [pieceWords_quad]
      rfl

/-- Nothing put together is one empty piece. -/
def orEmpty (ps : List Bytes) : List Bytes := if ps = [] then [[]] else ps

theorem splitOn_joined {ps : List Bytes} (hps : ∀ p ∈ ps, IsPiece p) :
    ([chr ':'].intercalate ps).splitOn (chr ':') = orEmpty ps := by
  by_cases hnil : ps = []
  · subst hnil
    rfl
  · rw [orEmpty, if_neg hnil]
    exact List.splitOn_intercalate (chr ':') (fun p hp => (hps p hp).2) hnil

theorem takeWhile_orEmpty {ps : List Bytes} (hps : ∀ p ∈ ps, IsPiece p) (rest : List Bytes) :
    (orEmpty ps ++ [] :: rest).takeWhile (!·.isEmpty) = ps := by
  by_cases hnil : ps = []
  · subst hnil
    rfl
  · have hall : ∀ p ∈ ps, (!p.isEmpty) = true := fun p hp => by simpa using (hps p hp).1
    rw [orEmpty, if_neg hnil, List.takeWhile_append_of_pos hall]
    simp

theorem reverse_orEmpty (ps : List Bytes) : (orEmpty ps).reverse = orEmpty ps.reverse := by
  by_cases hnil : ps = []
  · subst hnil
    rfl
  · rw [orEmpty, orEmpty, if_neg hnil, if_neg (by simpa using hnil)]

theorem IpV6Form.splitOn_elided (pre : List HexGroup) (post : Elements)
    (h : pre.length + post.count ≤ 7) :
    (IpV6Form.elided pre post h).text.splitOn (chr ':') =
      orEmpty (pre.map HexGroup.text) ++ [] :: orEmpty post.pieces := by
  have hpre : ∀ p ∈ pre.map HexGroup.text, IsPiece p := by
    intro p hp
    obtain ⟨g, -, rfl⟩ := List.mem_map.1 hp
    exact g.isPiece
  have htext : (IpV6Form.elided pre post h).text =
      [chr ':'].intercalate (pre.map HexGroup.text) ++ chr ':' :: ([] ++ chr ':' :: post.text) := by
    rw [text, List.append_assoc]
    rfl
  rw [htext, List.splitOn_append_cons_self, List.splitOn_append_cons_self, splitOn_joined hpre,
    Elements.text, splitOn_joined post.isPiece]
  rfl

/-- The text says which words are meant. -/
theorem IpV6Form.words_eq (f : IpV6Form) : f.words = readWords f.text := by
  cases f with
  | whole e h =>
      have hne : e.pieces ≠ [] := by
        intro hnil
        rw [← e.length_words, ← e.pieces_words, hnil] at h
        cases h
      have hall : ∀ p ∈ e.pieces, (!p.isEmpty) = true := fun p hp => by simpa using (e.isPiece p hp).1
      have hnil : [] ∉ e.pieces := fun hmem => (e.isPiece [] hmem).1 rfl
      rw [readWords, text, Elements.text, splitOn_joined e.isPiece, orEmpty, if_neg hne, if_neg hnil,
        List.takeWhile_eq_self_iff.2 hall, e.pieces_words]
      rfl
  | elided pre post h =>
      have hpre : ∀ p ∈ pre.map HexGroup.text, IsPiece p := by
        intro p hp
        obtain ⟨g, -, rfl⟩ := List.mem_map.1 hp
        exact g.isPiece
      have hpost : ∀ p ∈ post.pieces.reverse, IsPiece p := by
        intro p hp
        exact post.isPiece p (List.mem_reverse.1 hp)
      rw [readWords, IpV6Form.splitOn_elided]
      simp only [takeWhile_orEmpty hpre, List.reverse_append, List.reverse_cons, reverse_orEmpty,
        List.append_assoc, List.singleton_append, takeWhile_orEmpty hpost, List.reverse_reverse,
        groups_words, post.pieces_words, List.length_map, post.length_words]
      rw [if_pos (by simp)]
      simp only [words, List.append_assoc]

theorem Denotes.unique {a : Bytes} {x y : Address} (hx : Denotes a x) (hy : Denotes a y) : x = y := by
  obtain ⟨f, rfl, rfl⟩ := hx
  obtain ⟨g, htext, rfl⟩ := hy
  refine Address.ext ?_
  show f.words = g.words
  rw [f.words_eq, g.words_eq, htext]

/-! ### What the rule takes -/

theorem h16_takes : Takes h16 fun w => ∃ g : HexGroup, w = g.text := by
  have hone : Takes (times 1 xdigit) fun w => w.length = 1 ∧ ∀ c ∈ w, isXdigit c.toNat = true := by
    intro s r h
    obtain ⟨r₁, hx, hr⟩ := seq_eq_some_iff.1 h
    obtain rfl : r₁ = r := Option.some.inj hr
    obtain ⟨c, rfl, hc⟩ := satisfy_eq_some.1 hx
    exact ⟨[c], rfl, rfl, by simpa using hc⟩
  refine takes_seq_of hone (takes_upTo_satisfy _ (4 - 1)) ?_
  rintro v w ⟨hv, hvx⟩ ⟨hw, hwx⟩
  refine ⟨⟨v ++ w, closed_all _ |>.append hvx hwx, ?_, ?_⟩, rfl⟩
  · rw [List.length_append]
    omega
  · rw [List.length_append]
    omega

theorem lit_takes (l : String) : Takes (lit l) (· = ascii l) :=
  fun _ _ h => ⟨ascii l, lit_eq_some h, rfl⟩

theorem groupColon_takes : Takes (seq h16 (lit ":")) fun w =>
    ∃ g : HexGroup, w = g.text ++ [chr ':'] := by
  refine takes_seq_of h16_takes (lit_takes ":") ?_
  intro v w hv hw
  obtain ⟨g, rfl⟩ := hv
  exact ⟨g, by rw [hw]; rfl⟩

theorem colonGroup_takes : Takes (seq (lit ":") h16) fun w =>
    ∃ g : HexGroup, w = chr ':' :: g.text := by
  refine takes_seq_of (lit_takes ":") h16_takes ?_
  intro v w hv hw
  obtain ⟨g, rfl⟩ := hw
  exact ⟨g, by rw [hv]; rfl⟩

/-- `n( h16 ":" )`. -/
theorem times_takes (n : Nat) : Takes (times n (seq h16 (lit ":"))) fun w =>
    ∃ gs : List HexGroup, gs.length = n ∧ w = colonEnded gs := by
  induction n with
  | zero =>
      intro s r h
      obtain rfl : s = r := Option.some.inj h
      exact ⟨[], rfl, [], rfl, rfl⟩
  | succ n ih =>
      refine takes_seq_of groupColon_takes ih ?_
      intro v w hv hw
      obtain ⟨g, rfl⟩ := hv
      obtain ⟨gs, rfl, rfl⟩ := hw
      exact ⟨g :: gs, rfl, by simp only [colonEnded, List.append_assoc, List.singleton_append]⟩

/-- `*n( ":" h16 )`. -/
theorem upTo_takes (n : Nat) : Takes (fun s => some (upTo (seq (lit ":") h16) n s)) fun w =>
    ∃ gs : List HexGroup, gs.length ≤ n ∧ w = colonLed gs := by
  induction n with
  | zero =>
      intro s r h
      obtain rfl : s = r := Option.some.inj h
      exact ⟨[], rfl, [], Nat.le_refl 0, rfl⟩
  | succ n ih =>
      intro s r h
      simp only [upTo] at h
      cases hg : seq (lit ":") h16 s with
      | none =>
          rw [hg] at h
          obtain rfl : s = r := Option.some.inj h
          exact ⟨[], rfl, [], Nat.zero_le _, rfl⟩
      | some r₁ =>
          rw [hg] at h
          obtain ⟨v, rfl, g, rfl⟩ := colonGroup_takes s r₁ hg
          obtain ⟨w, rfl, gs, hlen, rfl⟩ := ih r₁ r h
          refine ⟨_, (List.append_assoc _ _ _).symm, g :: gs, Nat.succ_le_succ hlen, ?_⟩
          simp only [colonLed, List.cons_append]

/-- `[ *n( h16 ":" ) h16 ]`, written with the first group in front. -/
theorem lead_takes (n : Nat) :
    Takes (opt (seq h16 (between 0 n (seq (lit ":") h16)))) fun w =>
      ∃ gs : List HexGroup, gs.length ≤ n + 1 ∧ w = colonJoined gs := by
  refine takes_opt_of ⟨[], Nat.zero_le _, rfl⟩ (takes_seq_of h16_takes (upTo_takes n) ?_)
  intro v w hv hw
  obtain ⟨g, rfl⟩ := hv
  obtain ⟨gs, hlen, rfl⟩ := hw
  exact ⟨g :: gs, Nat.succ_le_succ hlen, rfl⟩

theorem optGroup_takes : Takes (opt h16) fun w =>
    ∃ gs : List HexGroup, gs.length ≤ 1 ∧ w = colonJoined gs := by
  refine takes_opt_of ⟨[], Nat.zero_le _, rfl⟩ (h16_takes.mono ?_)
  intro w hw
  obtain ⟨g, rfl⟩ := hw
  exact ⟨[g], Nat.le_refl 1, (List.append_nil _).symm⟩

/-- `[ *1( h16 ":" ) h16 ]` as the fourth alternative writes it. -/
theorem optTwo_takes : Takes (opt (seq (between 0 1 (seq h16 (lit ":"))) h16)) fun w =>
    ∃ gs : List HexGroup, gs.length ≤ 2 ∧ w = colonJoined gs := by
  have hone : Takes (between 0 1 (seq h16 (lit ":"))) fun w =>
      w = [] ∨ ∃ g : HexGroup, w = g.text ++ [chr ':'] := by
    intro s r h
    rw [between_zero_one] at h
    cases hg : seq h16 (lit ":") s with
    | none =>
        rw [hg] at h
        obtain rfl : s = r := Option.some.inj h
        exact ⟨[], rfl, Or.inl rfl⟩
    | some r₁ =>
        rw [hg] at h
        obtain rfl : r₁ = r := Option.some.inj h
        obtain ⟨w, hs, hw⟩ := groupColon_takes s r₁ hg
        exact ⟨w, hs, Or.inr hw⟩
  refine takes_opt_of ⟨[], Nat.zero_le _, rfl⟩ (takes_seq_of hone h16_takes ?_)
  intro v w hv hw
  obtain ⟨g, rfl⟩ := hw
  rcases hv with rfl | ⟨g', rfl⟩
  · exact ⟨[g], by simp, (List.append_nil _).symm⟩
  · refine ⟨[g', g], Nat.le_refl 2, ?_⟩
    simp only [colonJoined, colonLed, List.append_assoc, List.singleton_append, List.append_nil]

theorem ipV4Address_takes : Takes ipV4Address fun w => ∃ q : DottedQuad, w = q.text := by
  intro s r h
  obtain ⟨a, b, c, d, ha, hb, hc, rfl, hd⟩ := ipV4Address_eq_some.1 h
  obtain ⟨a, rfl⟩ := ha.exists_text
  obtain ⟨b, rfl⟩ := hb.exists_text
  obtain ⟨c, rfl⟩ := hc.exists_text
  obtain ⟨d, rfl⟩ := hd.word.exists_text
  refine ⟨_, ?_, ⟨a, b, c, d⟩, rfl⟩
  simp only [DottedQuad.text, DottedQuad.tail, List.append_assoc, List.cons_append]

theorem ls32_takes : Takes ls32 fun w => ∃ l : Ls32, w = l.text := by
  refine takes_alt (takes_seq_of groupColon_takes h16_takes ?_) (ipV4Address_takes.mono ?_)
  · intro v w hv hw
    obtain ⟨g, rfl⟩ := hv
    obtain ⟨g', rfl⟩ := hw
    exact ⟨.pair g g', by simp only [Ls32.text, List.append_assoc, List.singleton_append]⟩
  · intro w hw
    obtain ⟨q, rfl⟩ := hw
    exact ⟨.dotted q, rfl⟩

/-- An IPv4 address that is not the last element: at most three groups before `::`,
and two behind the address. -/
def DottedInside (a : Bytes) : Prop :=
  ∃ (pre : List HexGroup) (q : DottedQuad) (g g' : HexGroup), pre.length ≤ 3 ∧
    a = colonJoined pre ++ ascii "::" ++ (q.text ++ chr ':' :: (g.text ++ chr ':' :: g'.text))

/-- Groups before `::` and a tail behind it. -/
theorem colons_takes {p p' : Peg UInt8} {n : Nat} {L L' : Bytes → Prop}
    (hp : Takes p fun w => ∃ gs : List HexGroup, gs.length ≤ n ∧ w = colonJoined gs)
    (hp' : Takes p' L')
    (hL : ∀ pre : List HexGroup, pre.length ≤ n → ∀ w, L' w → L (colonJoined pre ++ ascii "::" ++ w)) :
    Takes (seq p (seq (lit "::") p')) L := by
  have htail : Takes (seq (lit "::") p') fun w => ∃ v, L' v ∧ w = ascii "::" ++ v := by
    refine takes_seq_of (lit_takes "::") hp' ?_
    intro v w hv hw
    exact ⟨w, hw, by rw [hv]⟩
  refine takes_seq_of hp htail ?_
  intro v w hv hw
  obtain ⟨pre, hpre, rfl⟩ := hv
  obtain ⟨w, hw, rfl⟩ := hw
  rw [← List.append_assoc]
  exact hL pre hpre w hw

/-- `n( h16 ":" ) ls32`. -/
theorem groupsLs32_takes (n : Nat) : Takes (seq (times n (seq h16 (lit ":"))) ls32) fun w =>
    ∃ (gs : List HexGroup) (l : Ls32), gs.length = n ∧ w = colonEnded gs ++ l.text := by
  refine takes_seq_of (times_takes n) ls32_takes ?_
  intro v w hv hw
  obtain ⟨gs, hlen, rfl⟩ := hv
  obtain ⟨l, rfl⟩ := hw
  exact ⟨gs, l, hlen, rfl⟩

/-- The tails of the second, third, fourth and seventh alternatives. -/
theorem elided_takes {p : Peg UInt8} {n k : Nat} (h : n + k ≤ 5)
    (hp : Takes p fun w => ∃ gs : List HexGroup, gs.length ≤ n ∧ w = colonJoined gs) :
    Takes (seq p (seq (lit "::") (seq (times k (seq h16 (lit ":"))) ls32))) fun w =>
      (∃ x : IpV6, w = x.text) ∨ DottedInside w := by
  refine colons_takes hp (groupsLs32_takes k) ?_
  intro pre hpre w hw
  obtain ⟨gs, l, rfl, rfl⟩ := hw
  exact Or.inl ⟨.elided pre gs l (by omega), rfl⟩

theorem colonGroups_takes : Takes (times 2 (seq (lit ":") h16)) fun w =>
    ∃ g g' : HexGroup, w = chr ':' :: (g.text ++ chr ':' :: g'.text) := by
  intro s r h
  obtain ⟨r₁, hg, h'⟩ := seq_eq_some_iff.1 h
  obtain ⟨r₂, hg', hr⟩ := seq_eq_some_iff.1 h'
  obtain rfl : r₂ = r := Option.some.inj hr
  obtain ⟨v, rfl, g, rfl⟩ := colonGroup_takes s r₁ hg
  obtain ⟨w, rfl, g', rfl⟩ := colonGroup_takes r₁ r₂ hg'
  exact ⟨_, (List.append_assoc _ _ _).symm, g, g', rfl⟩

/-- The tail of the fifth alternative. -/
theorem ls32Groups_takes : Takes (seq ls32 (times 2 (seq (lit ":") h16))) fun w =>
    ∃ (l : Ls32) (g g' : HexGroup), w = l.text ++ chr ':' :: (g.text ++ chr ':' :: g'.text) := by
  refine takes_seq_of ls32_takes colonGroups_takes ?_
  intro v w hv hw
  obtain ⟨l, rfl⟩ := hv
  obtain ⟨g, g', rfl⟩ := hw
  exact ⟨l, g, g', rfl⟩

/-- The tail of the sixth. -/
theorem groupLs32_takes : Takes (seq h16 (seq (lit ":") ls32)) fun w =>
    ∃ (g : HexGroup) (l : Ls32), w = g.text ++ chr ':' :: l.text := by
  rw [← seq_assoc]
  refine takes_seq_of groupColon_takes ls32_takes ?_
  intro v w hv hw
  obtain ⟨g, rfl⟩ := hv
  obtain ⟨l, rfl⟩ := hw
  exact ⟨g, l, by rw [List.append_assoc]; rfl⟩

/-- All that the nine alternatives take is in the grammar, but for what the fifth
takes when its `ls32` is an IPv4 address. -/
theorem ipV6Address_takes : Takes ipV6Address fun w =>
    (∃ x : IpV6, w = x.text) ∨ DottedInside w := by
  simp only [ipV6Address, seq_assoc]
  refine takes_alt (takes_alt (takes_alt (takes_alt (takes_alt (takes_alt (takes_alt (takes_alt
    ?_ ?_) ?_) ?_) ?_) ?_) ?_) ?_) ?_
  · refine (groupsLs32_takes 6).mono ?_
    intro w hw
    obtain ⟨gs, l, hlen, rfl⟩ := hw
    exact Or.inl ⟨.full gs l hlen, rfl⟩
  · refine takes_seq_of (lit_takes "::") (groupsLs32_takes 5) ?_
    intro v w hv hw
    obtain ⟨gs, l, hlen, rfl⟩ := hw
    exact Or.inl ⟨.elided [] gs l (by simp [hlen]), by rw [hv]; rfl⟩
  · exact elided_takes (by decide) optGroup_takes
  · exact elided_takes (by decide) optTwo_takes
  · -- four groups, or an IPv4 address and two groups behind it
    refine colons_takes (lead_takes 2) ls32Groups_takes ?_
    intro pre hpre w hw
    obtain ⟨l, g, g', rfl⟩ := hw
    cases l with
    | pair a b =>
        refine Or.inl ⟨.elided pre [a, b] (.pair g g') (by simp; omega), ?_⟩
        simp only [IpV6.text, Ls32.text, colonEnded, List.append_assoc, List.cons_append,
          List.nil_append]
    | dotted q => exact Or.inr ⟨pre, q, g, g', hpre, rfl⟩
  · refine colons_takes (lead_takes 3) groupLs32_takes ?_
    intro pre hpre w hw
    obtain ⟨g, l, rfl⟩ := hw
    refine Or.inl ⟨.elided pre [g] l (by simp; omega), ?_⟩
    simp only [IpV6.text, colonEnded, List.append_assoc, List.cons_append, List.nil_append]
  · refine colons_takes (lead_takes 4) ls32_takes ?_
    intro pre hpre w hw
    obtain ⟨l, rfl⟩ := hw
    exact Or.inl ⟨.elided pre [] l (by simpa using hpre), rfl⟩
  · refine colons_takes (lead_takes 5) h16_takes ?_
    intro pre hpre w hw
    obtain ⟨g, rfl⟩ := hw
    exact Or.inl ⟨.elidedOne pre g hpre, rfl⟩
  · refine takes_seq_of (lead_takes 6) (lit_takes "::") ?_
    intro v w hv hw
    obtain ⟨pre, hpre, rfl⟩ := hv
    exact Or.inl ⟨.elidedAll pre hpre, by rw [hw]; rfl⟩

/-! ### The words of the grammar are written addresses -/

theorem joined_append (gs : List HexGroup) {ps : List Bytes} (hps : ps ≠ []) :
    [chr ':'].intercalate (gs.map HexGroup.text ++ ps) =
      colonEnded gs ++ [chr ':'].intercalate ps := by
  induction gs with
  | nil => rfl
  | cons g gs ih =>
      have hne : gs.map HexGroup.text ++ ps ≠ [] := by simp [hps]
      rw [List.map_cons, List.cons_append, List.intercalate_cons_of_ne_nil hne, ih, colonEnded_cons,
        List.append_assoc]
      rfl

theorem joined_groups (gs : List HexGroup) :
    [chr ':'].intercalate (gs.map HexGroup.text) = colonJoined gs := by
  cases gs with
  | nil => rfl
  | cons g gs =>
      induction gs generalizing g with
      | nil => simp only [List.map_cons, List.map_nil, List.intercalate_singleton, colonJoined,
          colonLed, List.append_nil]
      | cons g' gs ih =>
          have hrest := ih g'
          simp only [List.map_cons, List.intercalate_cons_cons, List.append_assoc] at hrest ⊢
          rw [hrest]
          rfl

/-- Groups and an `ls32`. -/
def Elements.ending (gs : List HexGroup) : Ls32 → Elements
  | .pair g g' => ⟨gs ++ [g, g'], none⟩
  | .dotted q => ⟨gs, some q⟩

theorem Elements.text_ending (gs : List HexGroup) (l : Ls32) :
    (ending gs l).text = colonEnded gs ++ l.text := by
  cases l with
  | pair g g' =>
      have hpieces : (ending gs (.pair g g')).pieces =
          gs.map HexGroup.text ++ [g.text, g'.text] := by
        simp [ending, pieces]
      rw [text, hpieces, joined_append gs (by simp), List.intercalate_cons_cons,
        List.intercalate_singleton, List.append_assoc]
      rfl
  | dotted q =>
      have hpieces : (ending gs (.dotted q)).pieces = gs.map HexGroup.text ++ [q.text] := rfl
      rw [text, hpieces, joined_append gs (by simp), List.intercalate_singleton]
      rfl

theorem Elements.count_ending (gs : List HexGroup) (l : Ls32) :
    (ending gs l).count = gs.length + 2 := by
  cases l <;> simp [ending, count]

theorem IpV6.exists_form (x : IpV6) : ∃ f : IpV6Form, f.text = x.text := by
  cases x with
  | full gs l h =>
      have hcount : (Elements.ending gs l).count = 8 := by rw [Elements.count_ending, h]
      exact ⟨.whole (.ending gs l) hcount, Elements.text_ending gs l⟩
  | elided pre gs l h =>
      have hcount : pre.length + (Elements.ending gs l).count ≤ 7 := by
        rw [Elements.count_ending]
        omega
      refine ⟨.elided pre (.ending gs l) hcount, ?_⟩
      rw [IpV6Form.text, joined_groups, Elements.text_ending, IpV6.text]
  | elidedOne pre g h =>
      have hcount : pre.length + (Elements.mk [g] none).count ≤ 7 := Nat.add_le_add_right h 1
      have htext : (Elements.mk [g] none).text = g.text := List.intercalate_singleton
      refine ⟨.elided pre ⟨[g], none⟩ hcount, ?_⟩
      rw [IpV6Form.text, joined_groups, htext, IpV6.text]
  | elidedAll pre h =>
      refine ⟨.elided pre ⟨[], none⟩ h, ?_⟩
      show [chr ':'].intercalate (pre.map HexGroup.text) ++ ascii "::" ++ [] = _
      rw [joined_groups, List.append_nil, IpV6.text]

/-! ### An IPv4 address that is not the last element -/

theorem HexGroup.dot_notMem {gs : List HexGroup} {p : Bytes} (hp : p ∈ gs.map HexGroup.text) :
    chr '.' ∉ p := by
  obtain ⟨g, -, rfl⟩ := List.mem_map.1 hp
  exact g.notMem (by decide)

theorem Elements.dot_notMem (e : Elements) : ∀ p ∈ (orEmpty e.pieces).dropLast, chr '.' ∉ p := by
  obtain ⟨groups, last⟩ := e
  intro p hp
  cases last with
  | some q =>
      have hpieces : orEmpty (Elements.mk groups (some q)).pieces =
          groups.map HexGroup.text ++ [q.text] := if_neg (by simp [pieces])
      rw [hpieces, List.dropLast_concat] at hp
      exact HexGroup.dot_notMem hp
  | none =>
      have hmem : p ∈ orEmpty (groups.map HexGroup.text ++ []) := List.mem_of_mem_dropLast hp
      rw [List.append_nil, orEmpty] at hmem
      split at hmem
      · rw [List.mem_singleton.1 hmem]
        simp
      · exact HexGroup.dot_notMem hmem

theorem orEmpty_ne_nil (ps : List Bytes) : orEmpty ps ≠ [] := by
  rw [orEmpty]
  split
  · simp
  · assumption

/-- Only the last piece of a written address has a dot. -/
theorem IpV6Form.dot_notMem (f : IpV6Form) :
    ∀ p ∈ (f.text.splitOn (chr ':')).dropLast, chr '.' ∉ p := by
  cases f with
  | whole e h =>
      rw [text, Elements.text, splitOn_joined e.isPiece]
      exact e.dot_notMem
  | elided pre post h =>
      intro p hp
      rw [IpV6Form.splitOn_elided, List.dropLast_append_of_ne_nil (by simp),
        List.dropLast_cons_of_ne_nil (orEmpty_ne_nil _), List.mem_append, List.mem_cons] at hp
      rcases hp with hp | rfl | hp
      · rw [orEmpty] at hp
        split at hp
        · rw [List.mem_singleton.1 hp]
          simp
        · exact HexGroup.dot_notMem hp
      · simp
      · exact post.dot_notMem p hp

theorem DottedInside.not_denotes {a : Bytes} (h : DottedInside a) (x : Address) : ¬Denotes a x := by
  obtain ⟨pre, q, g, g', -, rfl⟩ := h
  intro hx
  obtain ⟨f, htext, -⟩ := hx
  have hsplit : (colonJoined pre ++ ascii "::" ++ (q.text ++ chr ':' :: (g.text ++ chr ':' ::
      g'.text))).splitOn (chr ':') = (colonJoined pre ++ [chr ':']).splitOn (chr ':') ++
      [q.text, g.text, g'.text] := by
    have hrest : (q.text ++ chr ':' :: (g.text ++ chr ':' :: g'.text)).splitOn (chr ':') =
        [q.text, g.text, g'.text] := by
      rw [List.splitOn_append_cons_self_of_not_mem q.colon_notMem,
        List.splitOn_append_cons_self_of_not_mem g.isPiece.2, List.splitOn_eq_singleton g'.isPiece.2]
    have hjoin : colonJoined pre ++ ascii "::" ++ (q.text ++ chr ':' :: (g.text ++ chr ':' ::
        g'.text)) = (colonJoined pre ++ [chr ':']) ++ chr ':' :: (q.text ++ chr ':' :: (g.text ++
        chr ':' :: g'.text)) := by
      simp only [List.append_assoc]
      rfl
    rw [hjoin, List.splitOn_append_cons_self, hrest]
  have hdot : chr '.' ∈ q.text := by
    simp [DottedQuad.text, DottedQuad.tail]
  refine f.dot_notMem q.text ?_ hdot
  rw [htext, hsplit, List.dropLast_append_of_ne_nil (by simp)]
  exact List.mem_append_right _ (by simp)

/-- The alternatives before the fifth want a colon behind their first group. -/
theorem DottedInside.accepted {a : Bytes} (h : DottedInside a) : ipV6Address a = some [] := by
  obtain ⟨pre, q, g, g', hpre, rfl⟩ := h
  have hgroups {k : Nat} (hk : 0 < k) (r : Bytes) :
      seq (times k (seq h16 (lit ":"))) ls32 (q.text ++ r) = none :=
    @groups_fewer [] k hk (q.text ++ r) (groupColon_quad q r)
  have hfifth : seq ls32 (times 2 (seq (lit ":") h16))
      (q.text ++ chr ':' :: (g.text ++ chr ':' :: g'.text)) = some [] := by
    have hlast : h16 g'.text = some [] := by
      have hg' := h16_group g' (r := []) (by simp [NotHex])
      rwa [List.append_nil] at hg'
    rw [seq, ls32_quad q (notHex_colon _)]
    simp only [times, seq, lit_colon, h16_group g (notHex_colon _), hlast]
  rw [ipV6Address_colons (by omega), behindColons,
    alt_eq_right (guarded_none (hgroups (by decide) _)),
    alt_eq_right (guarded_none (hgroups (by decide) _)),
    alt_eq_right (guarded_none (hgroups (by decide) _)), guarded_pos hpre]
  exact alt_eq_left hfifth

/-- What `ip_v6_address` matches completely is a way to write one address, unless
an IPv4 address stands before two groups in it; and every text of that kind with at
most three groups before `::` is matched. -/
theorem ipV6Address_denotes_iff (a : Bytes) :
    (ipV6Address a = some [] → ∃! x, Denotes a x) ↔ ¬DottedInside a := by
  constructor
  · intro h hinside
    obtain ⟨x, hx, -⟩ := h hinside.accepted
    exact hinside.not_denotes x hx
  · intro hinside haccept
    obtain ⟨x, rfl⟩ := (ipV6Address_takes.whole haccept).resolve_right hinside
    obtain ⟨f, hf⟩ := x.exists_form
    exact ⟨f.address, ⟨f, hf, rfl⟩, fun y hy => Denotes.unique hy ⟨f, hf, rfl⟩⟩

/-- Six groups' worth of text in which the IPv4 address comes first. -/
theorem ipV6Address_dottedInside : ipV6Address (ascii "::1.2.3.4:5:6") = some [] ∧
    ¬∃ x, Denotes (ascii "::1.2.3.4:5:6") x := by
  have hinside : DottedInside (ascii "::1.2.3.4:5:6") :=
    ⟨[], ⟨.digit 1, .digit 2, .digit 3, .digit 4⟩, .single (chr '5') rfl, .single (chr '6') rfl,
      by simp, rfl⟩
  refine ⟨hinside.accepted, ?_⟩
  intro h
  obtain ⟨x, hx⟩ := h
  exact hinside.not_denotes x hx

end Foxy.Uri
