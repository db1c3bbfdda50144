import Mathlib.Data.List.Basic
import Mathlib.Tactic.Common

/-!
# Foxy.Lib.ForEach

The loop `for (it = first; it != last; ++it) use(*it)` over an input iterator.

An input iterator may do its work in any of its operations, so all of them are part
of the interface and each may change the iterator. The loop need not end; `forEach`
counts its rounds down and says so when they run out. `forEach_total` is the rule for
loops that do end: an invariant, a measure, and what one round adds to the result of
the rounds behind it.
-/

namespace Lib

/-- An input iterator: its states are `σ`, its values `α`. -/
structure InputIterator (σ α : Type*) where
  /-- `*it`: the value, and the iterator once it has been read. -/
  read : σ → α × σ
  /-- `++it`. -/
  next : σ → σ
  /-- `it == other`. -/
  same : σ → σ → Bool

namespace InputIterator

variable {σ α : Type*} (I : InputIterator σ α)

/-- The iterator one round later. -/
def after (s : σ) : σ := I.next (I.read s).2

/-- At most `n` rounds from `s` to `last`: every value with the iterator it was read
from, or `none` where the rounds do not suffice. -/
def forEach (last : σ) : Nat → σ → Option (List (σ × α))
  | 0, s => if I.same s last then some [] else none
  | n + 1, s =>
    if I.same s last then some []
    else (forEach last n (I.after s)).map ((s, (I.read s).1) :: ·)

variable {I} {last s : σ} {n : Nat}

theorem forEach_done (h : I.same s last = true) : I.forEach last n s = some [] := by
  cases n with
  | zero => rw [forEach, if_pos h]
  | succ n => rw [forEach, if_pos h]

theorem forEach_round {tr : List (σ × α)} (h : I.same s last = false)
    (hrest : I.forEach last n (I.after s) = some tr) :
    I.forEach last (n + 1) s = some ((s, (I.read s).1) :: tr) := by
  rw [forEach, if_neg (by simp [h]), hrest]
  rfl

/-- The rule for a loop with an invariant and a measure. -/
theorem forEach_total {P : σ → List (σ × α) → Prop} (Inv : σ → Prop) (measure : σ → Nat)
    (done : ∀ s, Inv s → I.same s last = true → P s [])
    (round : ∀ s tr, Inv s → I.same s last = false → P (I.after s) tr →
      P s ((s, (I.read s).1) :: tr))
    (keep : ∀ s, Inv s → I.same s last = false →
      Inv (I.after s) ∧ measure (I.after s) < measure s)
    (hs : Inv s) (hn : measure s ≤ n) : ∃ tr, I.forEach last n s = some tr ∧ P s tr := by
  induction n generalizing s with
  | zero =>
      have hsame : I.same s last = true := by
        by_contra hne
        have hlt := (keep s hs (Bool.eq_false_iff.2 hne)).2
        omega
      exact ⟨[], forEach_done hsame, done s hs hsame⟩
  | succ n ih =>
      cases hsame : I.same s last with
      | true => exact ⟨[], forEach_done hsame, done s hs hsame⟩
      | false =>
          obtain ⟨hinv, hlt⟩ := keep s hs hsame
          obtain ⟨tr, htr, hP⟩ := ih hinv (by omega)
          exact ⟨_, forEach_round hsame htr, round s tr hs hsame hP⟩

end InputIterator

end Lib
