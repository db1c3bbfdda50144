import Foxy.Lib.Peg

/-!
# Foxy.X3

The Boost.Spirit.X3 primitives the grammars are written with, on top of the
combinators of `Foxy.Lib.Peg`.

Text is a list of code units: `UInt8` for `char`. A string in the source is
written with its characters, compared through their codes, so that the rules
below read like those of the source.

`charSet` follows X3's notation for the argument of `char_`: a `-` between two
characters is the inclusive range between them, a leading or trailing `-`
stands for itself.
-/

namespace Foxy

/-- A `char` string: a list of bytes. -/
abbrev Bytes := List UInt8

/-- An ASCII character of the source. -/
def chr (c : Char) : UInt8 := UInt8.ofNat c.toNat

/-- The bytes of an ASCII literal of the source. -/
def ascii (s : String) : Bytes := s.toList.map chr

namespace X3

/-- A code unit type: what X3 compares is the numeric code. -/
class CodeUnit (α : Type) where
  code : α → Nat

instance : CodeUnit UInt8 := ⟨UInt8.toNat⟩

/-- The codes of a literal. -/
def codes (s : String) : List Nat := s.toList.map Char.toNat

/-- Membership in the character set denoted by a definition string. After a
range its upper end is read again, as the lower end of a possible next one. -/
def charSet : List Nat → Nat → Bool
  | [], _ => false
  | [a], c => c == a
  | [a, b], c => c == a || c == b
  | a :: b :: d :: rest, c =>
    if b = '-'.toNat then (a ≤ c && c ≤ d) || charSet (d :: rest) c
    else c == a || charSet (b :: d :: rest) c

/-! ### Character classes of the `standard` encoding ("C" locale) -/

/-- `isdigit`. -/
def isDigit (c : Nat) : Bool := 0x30 ≤ c && c ≤ 0x39

/-- `isalpha`. -/
def isAlpha (c : Nat) : Bool := (0x41 ≤ c && c ≤ 0x5a) || (0x61 ≤ c && c ≤ 0x7a)

/-- `isxdigit`. -/
def isXdigit (c : Nat) : Bool :=
  isDigit c || (0x41 ≤ c && c ≤ 0x46) || (0x61 ≤ c && c ≤ 0x66)

/-- `tolower`. -/
def toLower (c : Nat) : Nat := if 0x41 ≤ c && c ≤ 0x5a then c + 0x20 else c

/-! ### Primitive parsers -/

section
variable {α : Type} [CodeUnit α]
open CodeUnit

/-- `x3::char_("...")`. -/
def charOf (set : String) : Peg α := Peg.satisfy fun c => charSet (codes set) (code c)

/-- `x3::lit("...")`. -/
def lit (s : String) : Peg α := Peg.tokens ((codes s).map fun n c => code c == n)

/-- `x3::lit("...")` below `x3::no_case`. -/
def litNoCase (s : String) : Peg α :=
  Peg.tokens ((codes s).map fun n c => toLower (code c) == toLower n)

/-- `x3::char_`, any character. -/
def anyChar : Peg α := Peg.satisfy fun _ => true

end

/-- `x3::alpha`. -/
def alpha : Peg UInt8 := Peg.satisfy fun c => isAlpha c.toNat

/-- `x3::digit`. -/
def digit : Peg UInt8 := Peg.satisfy fun c => isDigit c.toNat

/-- `x3::xdigit`. -/
def xdigit : Peg UInt8 := Peg.satisfy fun c => isXdigit c.toNat

theorem toNat_chr {c : Char} (hc : c.toNat < 256) : (chr c).toNat = c.toNat := by
  rw [chr, UInt8.toNat_ofNat']
  exact Nat.mod_eq_of_lt hc

/-- The bytes of a literal have its codes. -/
theorem mem_ascii {l : String} (hl : (codes l).all (· < 256) = true) {c : UInt8} :
    c ∈ ascii l ↔ c.toNat ∈ codes l := by
  rw [codes, List.all_map] at hl
  rw [ascii, codes, List.mem_map, List.mem_map]
  refine exists_congr fun d => and_congr_right fun hd => ?_
  have hd' := toNat_chr (of_decide_eq_true (List.all_eq_true.1 hl d hd))
  rw [← UInt8.toNat_inj, hd']

/-- One range. -/
theorem charSet_range {a b n : Nat} (hab : a ≤ b) (h : charSet [a, '-'.toNat, b] n = true) :
    a ≤ n ∧ n ≤ b := by
  simp only [charSet, if_true, Bool.or_eq_true, Bool.and_eq_true, decide_eq_true_eq,
    beq_iff_eq] at h
  omega

/-- A literal matches exactly itself. -/
theorem lit_eq_some {l : String} {s r : Bytes} (h : lit l s = some r) : s = ascii l ++ r := by
  obtain ⟨w, rfl, hw⟩ := Peg.tokens_eq_some.1 h
  rw [codes, List.map_map, List.forall₂_map_left_iff] at hw
  congr 1
  rw [ascii, ← List.forall₂_eq_eq_eq, List.forall₂_map_right_iff]
  refine hw.flip.imp ?_
  intro b c hbc
  rw [Function.comp_apply, beq_iff_eq] at hbc
  rw [chr, ← hbc]
  exact (UInt8.ofNat_toNat (x := b)).symm

/-- It fails where another character stands. -/
theorem lit_of_head_ne {l : String} {s : Bytes} {c : UInt8} (hl : (ascii l).head? = some c)
    (hs : s.head? ≠ some c) : lit l s = none := by
  cases h : lit l s with
  | none => rfl
  | some r =>
      rw [lit_eq_some h, List.head?_append, hl] at hs
      exact absurd rfl hs

theorem lit_consumes {l : String} (hl : l.toList ≠ []) : Peg.Consumes (lit l : Peg UInt8) :=
  Peg.consumes_tokens (by simpa [codes] using hl)

/-- Where it stands it is matched. -/
theorem lit_append {l : String} (hl : l.toList.all (·.toNat < 256) = true) (r : Bytes) :
    lit l (ascii l ++ r) = some r := by
  refine Peg.tokens_eq_some.2 ⟨ascii l, rfl, ?_⟩
  rw [codes, List.map_map, List.forall₂_map_left_iff, ascii, List.forall₂_map_right_iff]
  refine List.forall₂_same.2 ?_
  intro c hc
  rw [Function.comp_apply, beq_iff_eq]
  exact toNat_chr (of_decide_eq_true (List.all_eq_true.1 hl c hc))

end X3

end Foxy
