import Foxy.Lib.ForEach
import Foxy.Uri.PctEncode

/-!
# Foxy.Utf8

`utf8_encode` over a range, and the iterator of `code_point_view<char>`.

`code_point_iterator` does its work in `operator*`: reading a code point moves the
iterator behind it, both increments leave the iterator alone, and two iterators are
equal when they stand at one place. A loop over a view is therefore right only as long
as it reads the iterator once in every round, which the loop of `utf8_encode` does.
`utf_traits<char>::decode` is Boost's; `DecodesUtf8` is what the loop needs of it. The
scalar values of Unicode are Lean's characters, and the UTF-8 of one is
`String.utf8EncodeChar`.
-/

namespace Foxy

open Lib

/-! ### The iterator and the view -/

/-- `code_point_iterator` over a text, with `iterator_` and `end_` as offsets. -/
structure CodePointIterator where
  iterator : Nat
  stop : Nat
  deriving Repr, DecidableEq

def makeCodePointIterator (iterator stop : Nat) : CodePointIterator := ⟨iterator, stop⟩

namespace CodePointIterator

/-- `operator*`: `decode` takes the bytes up to `end_` and moves `iterator_` along. -/
def read (decode : Bytes → UInt32 × Nat) (text : Bytes) (it : CodePointIterator) :
    UInt32 × CodePointIterator :=
  let r := decode ((text.take it.stop).drop it.iterator)
  (r.1, { it with iterator := it.iterator + r.2 })

/-- `operator++`, of either kind. -/
def increment (it : CodePointIterator) : CodePointIterator := it

/-- `operator==`. -/
def equal (it rhs : CodePointIterator) : Bool := it.iterator == rhs.iterator

end CodePointIterator

/-- The iterators of one view. -/
def codePointIterator (decode : Bytes → UInt32 × Nat) (text : Bytes) :
    InputIterator CodePointIterator UInt32 where
  read := CodePointIterator.read decode text
  next := CodePointIterator.increment
  same := CodePointIterator.equal

/-- `code_point_view<char>`. -/
structure CodePointView where
  view : Bytes

def CodePointView.begin (v : CodePointView) : CodePointIterator :=
  makeCodePointIterator 0 v.view.length

/-- `code_point_view::end`. -/
def CodePointView.stop (v : CodePointView) : CodePointIterator :=
  makeCodePointIterator v.view.length v.view.length

/-- The loop `for (it = begin; it != end; ++it) use(*it)` over a view. -/
def CodePointView.forEach (decode : Bytes → UInt32 × Nat) (v : CodePointView) (n : Nat) :
    Option (List (CodePointIterator × UInt32)) :=
  (codePointIterator decode v.view).forEach v.stop n v.begin

/-- The range overload of `utf8_encode`, in at most `n` rounds. -/
def utf8EncodeRange {σ : Type} (I : InputIterator σ UInt32) (n : Nat) (first last : σ) :
    Option Bytes :=
  (I.forEach last n first).map fun rounds => rounds.flatMap fun r => utf8Encode r.2

/-- The iterators of a plain range of `char32_t`; what follows the position is the
iterator, and nothing follows the end. -/
def rangeIterator : InputIterator (List UInt32) UInt32 where
  read s := (s.headD 0, s)
  next s := s.tail
  same s t := s == t

/-- Over a plain range the loop writes one code point after another. -/
theorem utf8EncodeRange_range {cs : List UInt32} {n : Nat} (hn : cs.length ≤ n) :
    utf8EncodeRange rangeIterator n cs [] = some (utf8EncodeAll cs) := by
  have hloop : ∃ rounds, rangeIterator.forEach [] n cs = some rounds ∧
      rounds.map Prod.snd = cs := by
    refine InputIterator.forEach_total (P := fun s rounds => rounds.map Prod.snd = s)
      (fun _ => True) List.length ?_ ?_ ?_ trivial hn
    · intro s _ hs
      exact (beq_iff_eq.1 hs).symm
    · intro s rounds _ hs ih
      cases s with
      | nil => exact absurd hs (by decide)
      | cons c s =>
          have htail : rounds.map Prod.snd = s := ih
          rw [List.map_cons, htail]
          rfl
    · intro s _ hs
      cases s with
      | nil => exact absurd hs (by decide)
      | cons c s => exact ⟨trivial, Nat.lt_succ_self s.length⟩
  obtain ⟨rounds, hrounds, hvalues⟩ := hloop
  rw [utf8EncodeRange, hrounds, utf8EncodeAll, ← hvalues, List.flatMap_map]
  rfl

/-! ### The bit layout -/

/-- A byte of a template: the marker, and the bits below it. -/
theorem toUInt8_or_marker {m marker : UInt32} {i a : Nat} (hmarker : marker.toNat = 2 ^ i * a)
    (hm : m.toNat < 2 ^ i) :
    (m ||| marker).toUInt8 = UInt8.ofNat (m.toNat % 2 ^ i + marker.toNat) := by
  rw [← UInt8.ofNat_uInt32ToNat, UInt32.toNat_or, hmarker, Nat.or_comm,
    ← Nat.two_pow_add_eq_or_of_lt hm, Nat.add_comm, Nat.mod_eq_of_lt hm]

theorem toNat_shiftRight_of_lt {m k : UInt32} (hk : k.toNat < 32) :
    (m >>> k).toNat = m.toNat / 2 ^ k.toNat := by
  rw [UInt32.toNat_shiftRight, Nat.mod_eq_of_lt hk, Nat.shiftRight_eq_div_pow]

/-- A byte `10xxxxxx`. -/
theorem trailByte (m : UInt32) :
    (m &&& 0x3f ||| 0x80).toUInt8 = UInt8.ofNat (m.toNat % 64 + 0x80) := by
  have hsix : (m &&& 0x3f).toNat = m.toNat % 2 ^ 6 := by
    rw [UInt32.toNat_and]
    exact Nat.and_two_pow_sub_one_eq_mod m.toNat 6
  have hlt : (m &&& 0x3f).toNat < 2 ^ 6 := by
    rw [hsix]
    exact Nat.mod_lt _ (by decide)
  rw [toUInt8_or_marker (a := 2) rfl hlt, hsix, Nat.mod_mod]
  rfl

/-- `utf8_encode` writes the UTF-8 of a scalar value. -/
theorem utf8Encode_char (c : Char) : utf8Encode c.val = String.utf8EncodeChar c := by
  have hmax : c.val.toNat < 0x110000 := by
    have hvalid := c.valid
    rw [UInt32.isValidChar, Nat.isValidChar] at hvalid
    omega
  have h6 : (c.val >>> 6).toNat = c.val.toNat / 64 := toNat_shiftRight_of_lt (by decide)
  have h12 : (c.val >>> 12).toNat = c.val.toNat / 4096 := toNat_shiftRight_of_lt (by decide)
  have h18 : (c.val >>> 18).toNat = c.val.toNat / 262144 := toNat_shiftRight_of_lt (by decide)
  simp only [utf8Encode, String.utf8EncodeChar, UInt32.le_iff_toNat_le, UInt32.reduceToNat,
    trailByte, h6, h12]
  -- the templates are the same, so only the leading bytes are left to compare
  by_cases hone : c.val.toNat ≤ 0x7f
  · rw [if_pos hone, if_pos hone, UInt8.ofNat_uInt32ToNat]
  · rw [if_neg hone, if_neg hone]
    by_cases htwo : c.val.toNat ≤ 0x7ff
    · rw [if_pos htwo, if_pos htwo, toUInt8_or_marker (i := 5) (a := 6) rfl (by omega), h6]
      rfl
    · rw [if_neg htwo, if_neg htwo]
      by_cases hthree : c.val.toNat ≤ 0xffff
      · rw [if_pos hthree, if_pos hthree, toUInt8_or_marker (i := 4) (a := 14) rfl (by omega), h12]
        rfl
      · rw [if_neg hthree, if_neg hthree, toUInt8_or_marker (i := 3) (a := 30) rfl (by omega), h18]
        rfl

/-! ### A loop over a view -/

/-- The bytes are the UTF-8 of these scalar values. -/
def Utf8Of (b : Bytes) (cs : List Char) : Prop := b = cs.flatMap String.utf8EncodeChar

theorem utf8EncodeAll_utf8Of (cs : List Char) : Utf8Of (utf8EncodeAll (cs.map Char.val)) cs := by
  rw [Utf8Of, utf8EncodeAll, List.flatMap_map, funext utf8Encode_char]

/-- `utf::illegal`. -/
def illegal : UInt32 := 0xffffffff

/-- `utf::incomplete`. -/
def incomplete : UInt32 := 0xfffffffe

/-- What the loop needs of `utf_traits<char>::decode`, given the bytes up to the end and
giving a code point and the number of bytes the iterator moves. -/
structure DecodesUtf8 (decode : Bytes → UInt32 × Nat) : Prop where
  advances : ∀ b, b ≠ [] → 0 < (decode b).2
  stays : ∀ b, (decode b).2 ≤ b.length
  char : ∀ c rest, decode (String.utf8EncodeChar c ++ rest) =
    (c.val, (String.utf8EncodeChar c).length)
  malformed : ∀ b, (∀ c, ¬String.utf8EncodeChar c <+: b) →
    (decode b).1 = illegal ∨ (decode b).1 = incomplete

section
variable {decode : Bytes → UInt32 × Nat} {b : Bytes}

/-- The offsets a round reads: those `operator*` moves over. -/
def offsetsRead (decode : Bytes → UInt32 × Nat) (b : Bytes) (r : CodePointIterator × UInt32) :
    List Nat :=
  List.range' r.1.iterator ((r.1.read decode b).2.iterator - r.1.iterator)

/-- A round reads a scalar value from the very bytes that encode it, or one of the two
error values. -/
def ReadsCodePoint (decode : Bytes → UInt32 × Nat) (b : Bytes)
    (r : CodePointIterator × UInt32) : Prop :=
  (∃ c : Char, r.2 = c.val ∧
    (offsetsRead decode b r).map (b[·]?) = (String.utf8EncodeChar c).map some) ∨
  r.2 = illegal ∨ r.2 = incomplete

/-- A loop from `s` has read the rest of the text, and each code point in it. -/
structure Traversed (decode : Bytes → UInt32 × Nat) (b : Bytes) (s : CodePointIterator)
    (rounds : List (CodePointIterator × UInt32)) : Prop where
  offsets : rounds.flatMap (offsetsRead decode b) =
    List.range' s.iterator (b.length - s.iterator)
  values : ∀ r ∈ rounds, ReadsCodePoint decode b r
  text : ∀ cs, Utf8Of (b.drop s.iterator) cs → rounds.map Prod.snd = cs.map Char.val

/-- An iterator of the view. -/
def InView (b : Bytes) (s : CodePointIterator) : Prop :=
  s.stop = b.length ∧ s.iterator ≤ b.length

theorem read_inView {s : CodePointIterator} (hs : InView b s) :
    s.read decode b = ((decode (b.drop s.iterator)).1,
      ⟨s.iterator + (decode (b.drop s.iterator)).2, s.stop⟩) := by
  rw [CodePointIterator.read, hs.1, List.take_length]

theorem after_inView {s : CodePointIterator} (hs : InView b s) :
    (codePointIterator decode b).after s =
      ⟨s.iterator + (decode (b.drop s.iterator)).2, s.stop⟩ := by
  show (s.read decode b).2 = _
  rw [read_inView hs]

theorem offsetsRead_inView {s : CodePointIterator} (hs : InView b s) (c : UInt32) :
    offsetsRead decode b (s, c) =
      List.range' s.iterator (decode (b.drop s.iterator)).2 := by
  rw [offsetsRead, read_inView hs, Nat.add_sub_cancel_left]

/-- The bytes at consecutive offsets. -/
theorem map_getElem?_range' {i k : Nat} (hk : i + k ≤ b.length) :
    (List.range' i k).map (b[·]?) = ((b.drop i).take k).map some := by
  have hlength : ((List.range' i k).map (b[·]?)).length = (((b.drop i).take k).map some).length := by
    rw [List.length_map, List.length_range', List.length_map, List.length_take, List.length_drop]
    omega
  refine List.ext_getElem hlength ?_
  intro j hj _
  rw [List.length_map, List.length_range'] at hj
  have hlt : i + j < b.length := by omega
  simp only [List.getElem_map, List.getElem_range', List.getElem_take, List.getElem_drop,
    Nat.one_mul, List.getElem?_eq_getElem hlt]

/-- What one round reads. -/
theorem readsCodePoint_round (hd : DecodesUtf8 decode) {s : CodePointIterator} (hs : InView b s) :
    ReadsCodePoint decode b (s, (s.read decode b).1) := by
  have hvalue : (s.read decode b).1 = (decode (b.drop s.iterator)).1 := by rw [read_inView hs]
  by_cases hchar : ∃ c, String.utf8EncodeChar c <+: b.drop s.iterator
  · obtain ⟨c, rest, hrest⟩ := hchar
    have hdecode := hd.char c rest
    rw [hrest] at hdecode
    have hlength : (b.drop s.iterator).length = b.length - s.iterator := List.length_drop
    rw [← hrest, List.length_append] at hlength
    refine Or.inl ⟨c, by rw [hvalue, hdecode], ?_⟩
    rw [offsetsRead_inView hs, hdecode, map_getElem?_range' (by have := hs.2; omega), ← hrest,
      List.take_left']
    rfl
  · right
    rw [hvalue]
    exact hd.malformed _ fun c hc => hchar ⟨c, hc⟩

/-- One round of the loop, over what the rounds behind it read. -/
theorem traversed_round (hd : DecodesUtf8 decode) {s : CodePointIterator}
    {rounds : List (CodePointIterator × UInt32)} (hs : InView b s) (hlt : s.iterator < b.length)
    (ih : Traversed decode b ((codePointIterator decode b).after s) rounds) :
    Traversed decode b s ((s, (s.read decode b).1) :: rounds) := by
  have hstays := hd.stays (b.drop s.iterator)
  rw [List.length_drop] at hstays
  rw [after_inView hs] at ih
  refine ⟨?_, ?_, ?_⟩
  · have hsplit : b.length - s.iterator = (decode (b.drop s.iterator)).2 +
        (b.length - (s.iterator + (decode (b.drop s.iterator)).2)) := by omega
    rw [List.flatMap_cons, offsetsRead_inView hs, ih.offsets, hsplit, List.range'_append_1]
  · intro r hr
    cases List.mem_cons.1 hr with
    | inl hhead => exact hhead ▸ readsCodePoint_round hd hs
    | inr htail => exact ih.values r htail
  · intro cs hcs
    cases cs with
    | nil =>
        have hnil : b.length ≤ s.iterator := List.drop_eq_nil_iff.1 hcs
        omega
    | cons c cs =>
        rw [Utf8Of, List.flatMap_cons] at hcs
        have hdecode := hd.char c (cs.flatMap String.utf8EncodeChar)
        rw [← hcs] at hdecode
        have hrest : Utf8Of (b.drop (s.iterator + (decode (b.drop s.iterator)).2)) cs := by
          rw [Utf8Of, hdecode, ← List.drop_drop, hcs, List.drop_left']
          rfl
        rw [List.map_cons, ih.text cs hrest, read_inView hs, hdecode]
        rfl

/-- The loop over a view ends, and has traversed the text. -/
theorem forEach_traversed (hd : DecodesUtf8 decode) {n : Nat} (hn : b.length ≤ n) :
    ∃ rounds, CodePointView.forEach decode ⟨b⟩ n = some rounds ∧
      Traversed decode b (CodePointView.begin ⟨b⟩) rounds := by
  have hlt : ∀ s, InView b s →
      (codePointIterator decode b).same s (CodePointView.stop ⟨b⟩) = false →
      s.iterator < b.length := by
    intro s hs hsame
    have hne : s.iterator ≠ b.length := by
      intro heq
      exact absurd (beq_iff_eq.2 heq) (Bool.eq_false_iff.1 hsame)
    exact Nat.lt_of_le_of_ne hs.2 hne
  refine InputIterator.forEach_total (InView b) (fun s => b.length - s.iterator) ?_ ?_ ?_
    ⟨rfl, Nat.zero_le _⟩ hn
  · intro s hs hsame
    have hend : s.iterator = b.length := beq_iff_eq.1 hsame
    refine ⟨by rw [hend, Nat.sub_self]; rfl, fun r hr => absurd hr List.not_mem_nil, ?_⟩
    intro cs hcs
    rw [Utf8Of, hend, List.drop_length] at hcs
    cases cs with
    | nil => rfl
    | cons c cs => exact absurd (List.append_eq_nil_iff.1 hcs.symm).1 (String.utf8EncodeChar_ne_nil)
  · intro s rounds hs hsame ih
    exact traversed_round hd hs (hlt s hs hsame) ih
  · intro s hs hsame
    have hbefore := hlt s hs hsame
    have hadvances := hd.advances (b.drop s.iterator)
      (by rw [Ne, List.drop_eq_nil_iff]; omega)
    have hstays := hd.stays (b.drop s.iterator)
    rw [List.length_drop] at hstays
    rw [after_inView hs]
    exact ⟨⟨hs.1, by show s.iterator + _ ≤ _; omega⟩, by show _ - (s.iterator + _) < _; omega⟩

/-- Encoding a range and reading it back gives the range; any bytes at all are read
from the first to the last, each once; and what is UTF-8 is written again as it was. -/
theorem codePointView_traverses (hd : DecodesUtf8 decode) :
    (∀ cs : List Char, ∃ b,
      (∀ n, cs.length ≤ n → utf8EncodeRange rangeIterator n (cs.map Char.val) [] = some b) ∧
      ∀ n, b.length ≤ n → (CodePointView.forEach decode ⟨b⟩ n).map (·.map Prod.snd) =
        some (cs.map Char.val)) ∧
    (∀ b n, b.length ≤ n → ∃ rounds, CodePointView.forEach decode ⟨b⟩ n = some rounds ∧
      rounds.flatMap (offsetsRead decode b) = List.range b.length ∧
      ∀ r ∈ rounds, ReadsCodePoint decode b r) ∧
    ∀ b cs n, b.length ≤ n → Utf8Of b cs →
      utf8EncodeRange (codePointIterator decode b) n (CodePointView.begin ⟨b⟩)
        (CodePointView.stop ⟨b⟩) = some b := by
  refine ⟨?_, ?_, ?_⟩
  · intro cs
    refine ⟨utf8EncodeAll (cs.map Char.val), ?_, ?_⟩
    · intro n hn
      exact utf8EncodeRange_range (by rw [List.length_map]; exact hn)
    · intro n hn
      obtain ⟨rounds, hrounds, htraversed⟩ := forEach_traversed hd hn
      rw [hrounds, Option.map_some, htraversed.text cs (utf8EncodeAll_utf8Of cs)]
  · intro b n hn
    obtain ⟨rounds, hrounds, htraversed⟩ := forEach_traversed hd hn
    refine ⟨rounds, hrounds, ?_, htraversed.values⟩
    rw [htraversed.offsets, List.range_eq_range']
    rfl
  · intro b cs n hn hcs
    obtain ⟨rounds, hrounds, htraversed⟩ := forEach_traversed hd hn
    have hvalues := htraversed.text cs hcs
    show (CodePointView.forEach decode ⟨b⟩ n).map _ = some b
    rw [hrounds, Option.map_some, ← List.flatMap_map, hvalues]
    exact congrArg some ((utf8EncodeAll_utf8Of cs).trans hcs.symm)

end

/-- Lean's own decoder in the place of Boost's: past a byte that starts no character it
moves by that byte alone. -/
def referenceDecode (b : Bytes) : UInt32 × Nat :=
  match b.toByteArray.utf8DecodeChar? 0 with
  | some c => (c.val, c.utf8Size)
  | none => if b = [] then (incomplete, 0) else (illegal, 1)

theorem referenceDecode_decodesUtf8 : DecodesUtf8 referenceDecode where
  advances b hb := by
    rw [referenceDecode]
    split
    case h_1 c _ => exact c.utf8Size_pos
    case h_2 => rw [if_neg hb]; exact Nat.one_pos
  stays b := by
    rw [referenceDecode]
    split
    case h_1 c hc =>
        have hle := ByteArray.le_size_of_utf8DecodeChar?_eq_some hc
        rw [List.size_toByteArray] at hle
        exact Nat.le_trans (Nat.le_add_left _ _) hle
    case h_2 =>
        split
        case isTrue => exact Nat.zero_le _
        case isFalse hne => exact List.length_pos_iff.2 hne
  char c rest := by
    have hsome : (String.utf8EncodeChar c ++ rest).toByteArray.utf8DecodeChar? 0 = some c := by
      rw [List.toByteArray_append]
      exact ByteArray.utf8DecodeChar?_utf8EncodeChar_append
    rw [referenceDecode, hsome, String.length_utf8EncodeChar]
  malformed b hb := by
    rw [referenceDecode]
    split
    case h_1 c hc =>
        obtain ⟨rest, hrest⟩ := ByteArray.exists_of_utf8DecodeChar?_eq_some hc
        have hdata := congrArg (fun bytes => bytes.data.toList) hrest
        simp only [ByteArray.data_append, Array.toList_append, List.toList_data_toByteArray] at hdata
        exact absurd ⟨_, hdata.symm⟩ (hb c)
    case h_2 =>
        split
        case isTrue => exact Or.inr rfl
        case isFalse => exact Or.inl rfl

theorem codePointView_traverses_euro :
    utf8EncodeRange (codePointIterator referenceDecode [0x61, 0xe2, 0x82, 0xac]) 4 ⟨0, 4⟩ ⟨4, 4⟩ =
      some [0x61, 0xe2, 0x82, 0xac] :=
  (codePointView_traverses referenceDecode_decodesUtf8).2.2 _ ['a', '€'] 4 (by decide) rfl

end Foxy
