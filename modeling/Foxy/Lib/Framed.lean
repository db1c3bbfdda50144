import Mathlib.Data.List.Basic
import Mathlib.Tactic.Common

/-!
# Foxy.Lib.Framed

Sequences of blocks, each written behind its length.

A block is framed as its length, spelled by `size`, a separator that no spelling
contains, and then the block between two fixed texts. Such a sequence can be
cut into its blocks in one way only.
-/

namespace Lib

variable {α : Type*}

/-- A spelling of numbers that is injective and never uses `sep`. -/
structure Spelling (α : Type*) where
  size : Nat → List α
  sep : α
  size_injective : Function.Injective size
  sep_notMem : ∀ n, sep ∉ size n

/-- One block: its length, the separator, `open_`, the block, `close`. -/
def Spelling.frame (c : Spelling α) (open_ close : List α) (w : List α) : List α :=
  c.size w.length ++ c.sep :: (open_ ++ w ++ close)

/-- Two texts that agree up to the first separator agree behind it. -/
theorem append_cons_inj_of_notMem {x : α} {a b s t : List α} (ha : x ∉ a) (hb : x ∉ b)
    (h : a ++ x :: s = b ++ x :: t) : a = b ∧ s = t := by
  induction a generalizing b with
  | nil =>
      cases b with
      | nil => exact ⟨rfl, by simpa using h⟩
      | cons y b =>
          have hxy : x = y := by simpa using (List.cons.inj h).1
          exact absurd (by simp [hxy]) hb
  | cons y a ih =>
      cases b with
      | nil =>
          have hyx : y = x := by simpa using (List.cons.inj h).1
          exact absurd (by simp [hyx]) ha
      | cons z b =>
          obtain ⟨hyz, hrest⟩ := List.cons.inj h
          obtain ⟨rfl, rfl⟩ := ih (fun hm => ha (List.mem_cons_of_mem _ hm))
            (fun hm => hb (List.mem_cons_of_mem _ hm)) hrest
          exact ⟨by rw [hyz], rfl⟩

variable (c : Spelling α) (open_ close : List α)

/-- A block can be read off the front of a text. -/
theorem Spelling.frame_append_inj {v w s t : List α}
    (h : c.frame open_ close v ++ s = c.frame open_ close w ++ t) : v = w ∧ s = t := by
  simp only [Spelling.frame, List.append_assoc, List.cons_append] at h
  obtain ⟨hsize, hrest⟩ := append_cons_inj_of_notMem (c.sep_notMem _) (c.sep_notMem _) h
  have hlen : v.length = w.length := c.size_injective hsize
  have hrest := List.append_cancel_left hrest
  obtain ⟨hvw, hst⟩ := List.append_inj hrest hlen
  exact ⟨hvw, List.append_cancel_left hst⟩

theorem Spelling.frame_ne_nil (w : List α) : c.frame open_ close w ≠ [] := by
  simp [Spelling.frame]

/-- A sequence of blocks can be cut in one way only. -/
theorem Spelling.flatMap_frame_injective :
    Function.Injective fun ws : List (List α) => ws.flatMap (c.frame open_ close) := by
  intro vs
  induction vs with
  | nil =>
      intro ws h
      cases ws with
      | nil => rfl
      | cons w ws =>
          simp only [List.flatMap_nil, List.flatMap_cons] at h
          exact absurd (List.append_eq_nil_iff.1 h.symm).1 (c.frame_ne_nil _ _ w)
  | cons v vs ih =>
      intro ws h
      cases ws with
      | nil =>
          simp only [List.flatMap_nil, List.flatMap_cons] at h
          exact absurd (List.append_eq_nil_iff.1 h).1 (c.frame_ne_nil _ _ v)
      | cons w ws =>
          simp only [List.flatMap_cons] at h
          obtain ⟨rfl, hrest⟩ := c.frame_append_inj open_ close h
          rw [ih hrest]

end Lib
