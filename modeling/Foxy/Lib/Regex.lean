import Mathlib.Data.List.Basic
import Mathlib.Logic.Function.Basic
import Mathlib.Tactic.Common

/-!
# Foxy.Lib.Regex

Backtracking regular expressions with capturing groups.

`runs r m` lists the ways `r` can match from `m`, in the order a backtracking
matcher tries them: repetition and `?` are greedy, so longer matches come
first. The match of an expression is the first of its runs. Repetition is over
character classes only.

`Yields r m m'` says that `m'` is the first run; its rules below follow a match
through an expression one construct at a time.
-/

/-- Expressions over the token type `α`. -/
inductive Regex (α : Type*)
  /-- One token of a class. -/
  | cls (f : α → Bool)
  /-- `[f]*`. -/
  | many (f : α → Bool)
  /-- `[f]+`. -/
  | many1 (f : α → Bool)
  /-- Concatenation. -/
  | seq (r s : Regex α)
  /-- `r?`. -/
  | opt (r : Regex α)
  /-- The capturing group of a number. -/
  | group (n : Nat) (r : Regex α)

namespace Regex

variable {α : Type*}

/-- A partial match: the input left, and what each group has captured (nothing
for a group that took no part). -/
structure Match (α : Type*) where
  rest : List α
  captured : Nat → List α

/-- The inputs left after `[f]*`, the longest match first. -/
def manyRests (f : α → Bool) : List α → List (List α)
  | [] => [[]]
  | c :: s => if f c then manyRests f s ++ [c :: s] else [c :: s]

/-- All runs of an expression, in order of preference. -/
def runs : Regex α → Match α → List (Match α)
  | .cls f, m =>
    match m.rest with
    | [] => []
    | c :: s => if f c then [{ m with rest := s }] else []
  | .many f, m => (manyRests f m.rest).map fun s => { m with rest := s }
  | .many1 f, m =>
    match m.rest with
    | [] => []
    | c :: s => if f c then (manyRests f s).map fun s => { m with rest := s } else []
  | .seq r s, m => (runs r m).flatMap (runs s)
  | .opt r, m => runs r m ++ [m]
  | .group n r, m => (runs r m).map fun m' =>
    ⟨m'.rest, Function.update m'.captured n (m.rest.take (m.rest.length - m'.rest.length))⟩

/-- What the groups capture in the match at the start of `s` (nothing where
there is no match). -/
def captures (r : Regex α) (s : List α) : Nat → List α :=
  ((runs r ⟨s, fun _ => []⟩).head?.getD ⟨s, fun _ => []⟩).captured

/-- `m'` is the preferred run of `r` from `m`. -/
def Yields (r : Regex α) (m m' : Match α) : Prop := (runs r m).head? = some m'

variable {r s : Regex α} {m m' m'' : Match α} {f : α → Bool}

theorem yields_iff : Yields r m m' ↔ (runs r m).head? = some m' := Iff.rfl

theorem runs_seq : runs (.seq r s) m = (runs r m).flatMap (runs s) := rfl

theorem runs_opt : runs (.opt r) m = runs r m ++ [m] := rfl

theorem runs_many : runs (.many f) m = (manyRests f m.rest).map fun s => { m with rest := s } := rfl

theorem runs_many1_cons {c : α} {t : List α} {g : Nat → List α} (hc : f c = true) :
    runs (.many1 f) ⟨c :: t, g⟩ = (manyRests f t).map fun s => ⟨s, g⟩ := if_pos hc

theorem runs_group {n : Nat} : runs (.group n r) m = (runs r m).map fun m' =>
    ⟨m'.rest, Function.update m'.captured n (m.rest.take (m.rest.length - m'.rest.length))⟩ := rfl

theorem yields_seq (h : Yields r m m') (h' : Yields s m' m'') : Yields (.seq r s) m m'' := by
  rw [yields_iff] at h h'
  rw [yields_iff, runs_seq]
  cases hr : runs r m with
  | nil =>
      rw [hr] at h
      cases h
  | cons x xs =>
      rw [hr] at h
      obtain rfl : x = m' := Option.some.inj h
      rw [List.flatMap_cons, List.head?_append, h', Option.some_or]

theorem yields_opt (h : Yields r m m') : Yields (.opt r) m m' := by
  rw [yields_iff] at h
  rw [yields_iff, runs_opt, List.head?_append, h, Option.some_or]

theorem yields_opt_skip (h : runs r m = []) : Yields (.opt r) m m := by
  rw [yields_iff, runs_opt, h]
  rfl

theorem yields_cls {c : α} {t : List α} {g : Nat → List α} (hc : f c = true) :
    Yields (.cls f) ⟨c :: t, g⟩ ⟨t, g⟩ := by
  have hruns : runs (.cls f) ⟨c :: t, g⟩ = [⟨t, g⟩] := if_pos hc
  rw [yields_iff, hruns]
  rfl

/-- The longest run of a class ends before the first token outside of it. -/
theorem head?_manyRests {w t : List α} (hw : ∀ c ∈ w, f c = true)
    (ht : ∀ c ∈ t.head?, f c = false) : (manyRests f (w ++ t)).head? = some t := by
  induction w with
  | nil =>
      cases t with
      | nil => rfl
      | cons c t =>
          have hc : f c = false := ht c (by simp)
          have hrests : manyRests f (c :: t) = [c :: t] := if_neg (by simp [hc])
          rw [List.nil_append, hrests]
          rfl
  | cons c w ih =>
      have hc : f c = true := hw c List.mem_cons_self
      have hrests : manyRests f (c :: (w ++ t)) = manyRests f (w ++ t) ++ [c :: (w ++ t)] :=
        if_pos hc
      have ih := ih fun d hd => hw d (List.mem_cons_of_mem _ hd)
      rw [List.cons_append, hrests, List.head?_append, ih, Option.some_or]

theorem yields_many {w t : List α} {g : Nat → List α} (hw : ∀ c ∈ w, f c = true)
    (ht : ∀ c ∈ t.head?, f c = false) : Yields (.many f) ⟨w ++ t, g⟩ ⟨t, g⟩ := by
  rw [yields_iff, runs_many, List.head?_map, head?_manyRests hw ht]
  rfl

theorem yields_many1 {w t : List α} {g : Nat → List α} (hne : w ≠ []) (hw : ∀ c ∈ w, f c = true)
    (ht : ∀ c ∈ t.head?, f c = false) : Yields (.many1 f) ⟨w ++ t, g⟩ ⟨t, g⟩ := by
  cases w with
  | nil => exact absurd rfl hne
  | cons c w =>
      have hrest := head?_manyRests (fun d hd => hw d (List.mem_cons_of_mem _ hd)) ht
      rw [yields_iff, List.cons_append, runs_many1_cons (hw c List.mem_cons_self), List.head?_map,
        hrest]
      rfl

theorem yields_group {n : Nat} {w t : List α} {g g' : Nat → List α}
    (h : Yields r ⟨w ++ t, g⟩ ⟨t, g'⟩) :
    Yields (.group n r) ⟨w ++ t, g⟩ ⟨t, Function.update g' n w⟩ := by
  have hcaptured : (w ++ t).take ((w ++ t).length - t.length) = w := by
    rw [List.length_append, Nat.add_sub_cancel, List.take_left]
  rw [yields_iff] at h
  rw [yields_iff, runs_group, List.head?_map, h, Option.map_some, hcaptured]

theorem captures_of_yields {w : List α} (h : Yields r ⟨w, fun _ => []⟩ m) :
    captures r w = m.captured := by
  rw [yields_iff] at h
  rw [captures, h, Option.getD_some]

end Regex
