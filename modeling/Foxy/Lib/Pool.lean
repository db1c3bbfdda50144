import Foxy.Lib.Run

/-!
# Foxy.Lib.Pool

A machine that spawns others. The parent and its children take their steps in
any order; a child's step changes that child only, a step of the parent adds at
most one child. A run of the pool is then a run of the parent, and beside it one
run of each child from the state it was spawned in.
-/

namespace Lib

variable {P C E F : Type*}

/-- The parent, and the children it has spawned, oldest first. -/
structure Pool (P C : Type*) where
  parent : P
  children : List C

inductive PoolEvent (E F : Type*)
  | parent (e : E)
  | child (i : Nat) (f : F)

namespace Pool

def step (pstep : P → E → Option (P × Option C)) (cstep : C → F → Option C) (s : Pool P C) :
    PoolEvent E F → Option (Pool P C)
  | .parent e => (pstep s.parent e).map fun r => ⟨r.1, s.children ++ r.2.toList⟩
  | .child i f =>
    (s.children[i]?.bind (cstep · f)).map fun c => ⟨s.parent, s.children.set i c⟩

/-- The parent on its own. -/
def parentStep (pstep : P → E → Option (P × Option C)) (p : P) (e : E) : Option P :=
  (pstep p e).map Prod.fst

/-- The steps of the parent. -/
def parentTrace (tr : List (Pool P C × PoolEvent E F)) : List (P × E) :=
  tr.filterMap fun x =>
    match x.2 with
    | .parent e => some (x.1.parent, e)
    | .child _ _ => none

variable {pstep : P → E → Option (P × Option C)} {cstep : C → F → Option C} {p : P}
  {s : Pool P C} {tr : List (Pool P C × PoolEvent E F)}

/-- The parent of a pool makes a run of its own. -/
theorem run_parent (h : Run (step pstep cstep) ⟨p, []⟩ tr s) :
    Run (parentStep pstep) p (parentTrace tr) s.parent := by
  refine h.invariant (I := fun tr s => Run (parentStep pstep) p (parentTrace tr) s.parent)
    .nil ?_
  intro tr s e s' _ ih hs
  rw [parentTrace, filterMap_snoc]
  cases e with
  | parent e =>
      obtain ⟨r, hr, rfl⟩ := Option.map_eq_some_iff.1 hs
      exact ih.snoc (by simp [parentStep, hr])
  | child i f =>
      obtain ⟨c, -, rfl⟩ := Option.map_eq_some_iff.1 hs
      rw [Option.toList_none, List.append_nil]
      exact ih

/-- The steps of one child. -/
def childTrace (i : Nat) (tr : List (Pool P C × PoolEvent E F)) : List (C × F) :=
  tr.filterMap fun x =>
    match x.2 with
    | .parent _ => none
    | .child j f => if j = i then x.1.children[i]?.map fun c => (c, f) else none

/-- Every child makes a run of its own from the state it was spawned in. -/
def Apart (cstep : C → F → Option C) (starts : List C) (tr : List (Pool P C × PoolEvent E F))
    (children : List C) : Prop :=
  starts.length = children.length ∧ (∀ i, children.length ≤ i → childTrace i tr = []) ∧
    ∀ (i : Nat) c, children[i]? = some c →
      ∃ c₀, starts[i]? = some c₀ ∧ Run cstep c₀ (childTrace i tr) c

/-- A step of the parent: the new child, if there is one, has made no step. -/
theorem Apart.parent {starts : List C} {e : E} (h : Apart cstep starts tr s.children)
    (c : Option C) :
    Apart cstep (starts ++ c.toList) (tr ++ [(s, PoolEvent.parent e)])
      (s.children ++ c.toList) := by
  obtain ⟨hlen, hnil, hruns⟩ := h
  have htr : ∀ i, childTrace i (tr ++ [(s, PoolEvent.parent e)]) = childTrace i tr := by
    intro i
    rw [childTrace, filterMap_snoc, Option.toList_none, List.append_nil]
    rfl
  refine ⟨by rw [List.length_append, List.length_append, hlen], ?_, ?_⟩
  · intro i hi
    rw [htr]
    rw [List.length_append] at hi
    exact hnil i (by omega)
  · intro i c' hc'
    rw [htr]
    rcases Nat.lt_or_ge i s.children.length with hi | hi
    · rw [List.getElem?_append_left hi] at hc'
      rw [List.getElem?_append_left (hlen ▸ hi)]
      exact hruns i c' hc'
    · rw [List.getElem?_append_right hi] at hc'
      rw [List.getElem?_append_right (hlen ▸ hi), hlen, hnil i hi]
      exact ⟨c', hc', .nil⟩

/-- A step of a child. -/
theorem Apart.child {starts : List C} {j : Nat} {f : F} {c c' : C}
    (h : Apart cstep starts tr s.children) (hc : s.children[j]? = some c)
    (hstep : cstep c f = some c') :
    Apart cstep starts (tr ++ [(s, PoolEvent.child j f)]) (s.children.set j c') := by
  obtain ⟨hlen, hnil, hruns⟩ := h
  obtain ⟨hj, -⟩ := List.getElem?_eq_some_iff.1 hc
  have htr : ∀ i, i ≠ j → childTrace i (tr ++ [(s, PoolEvent.child j f)]) = childTrace i tr := by
    intro i hi
    rw [childTrace, filterMap_snoc]
    simp only [if_neg hi.symm, Option.toList_none, List.append_nil]
    rfl
  refine ⟨by rw [List.length_set, hlen], ?_, ?_⟩
  · intro i hi
    rw [List.length_set] at hi
    rw [htr i (by omega)]
    exact hnil i hi
  · intro i c₁ hc₁
    by_cases hij : i = j
    · subst hij
      obtain rfl : c' = c₁ := by
        rw [List.getElem?_set_self hj] at hc₁
        exact Option.some.inj hc₁
      obtain ⟨c₀, hstart, hrun⟩ := hruns i c hc
      refine ⟨c₀, hstart, ?_⟩
      rw [childTrace, filterMap_snoc]
      simp only [if_true, hc, Option.map_some, Option.toList_some]
      exact hrun.snoc hstep
    · rw [List.getElem?_set_ne (Ne.symm hij)] at hc₁
      rw [htr i hij]
      exact hruns i c₁ hc₁

/-- The children of a pool make runs of their own. The parent keeps the states
they were spawned in in `spawns`. -/
theorem run_children {spawns : P → List C} (h : Run (step pstep cstep) ⟨p, []⟩ tr s)
    (hp : spawns p = [])
    (hspawn : ∀ p e p' c, pstep p e = some (p', c) → spawns p' = spawns p ++ c.toList) :
    Apart cstep (spawns s.parent) tr s.children := by
  refine h.invariant (I := fun tr s => Apart cstep (spawns s.parent) tr s.children) ?_ ?_
  · rw [hp]
    exact ⟨rfl, fun _ _ => rfl, fun i c hc => nomatch hc⟩
  · intro tr s e s' _ ih hs
    cases e with
    | parent e =>
        obtain ⟨⟨p', c⟩, hr, rfl⟩ := Option.map_eq_some_iff.1 hs
        dsimp only
        rw [hspawn _ _ _ _ hr]
        exact ih.parent c
    | child j f =>
        obtain ⟨c', hc, rfl⟩ := Option.map_eq_some_iff.1 hs
        obtain ⟨c, hget, hstep⟩ := Option.bind_eq_some_iff.1 hc
        exact ih.child hget hstep

end Pool

end Lib
