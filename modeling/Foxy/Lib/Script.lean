import Foxy.Lib.Run

/-!
# Foxy.Lib.Script

Routines that call operations one after another.

A routine (`Script`) runs on a world `W`: it reads and updates the world on the
spot, and it calls operations, each of which answers later. While an operation
is pending, or its answer waits to be delivered, the surroundings may act on the
world; between a delivery and the next call they may not. What an operation may
answer and what the surroundings may do is up to `Surroundings`.

`wp` says from which worlds a routine, whatever the operations answer and
whatever happens around them, keeps an invariant throughout and ends in a
postcondition. `Surroundings.run_wp` connects it to the runs of the machine that
takes the events one at a time.

Scripts are well-founded trees. A routine that loops for ever has, for each of
its finite runs, a script with the same run.
-/

namespace Lib

variable {W Op A E α β : Type*}

inductive Script (W Op A α : Type*)
  | done (a : α)
  /-- Change the world and go on from what it is now. -/
  | sync (f : W → W) (k : W → Script W Op A α)
  /-- Call an operation and go on with its answer. -/
  | call (op : Op) (k : A → Script W Op A α)

namespace Script

/-- Run one script after the other. -/
def bind : Script W Op A α → (α → Script W Op A β) → Script W Op A β
  | .done a, f => f a
  | .sync g k, f => .sync g fun w => (k w).bind f
  | .call op k, f => .call op fun a => (k a).bind f

/-- Go on from what the world is. -/
def look (k : W → Script W Op A α) : Script W Op A α := .sync id k

/-- Change the world. -/
def modify (f : W → W) (p : Script W Op A α) : Script W Op A α := .sync f fun _ => p

/-- The script in a larger world, the rest of which it does not touch. -/
def framed {G : Type*} : Script W Op A α → Script (W × G) Op A α
  | .done a => .done a
  | .sync f k => .sync (fun v => (f v.1, v.2)) fun v => (k v.1).framed
  | .call op k => .call op fun a => (k a).framed

end Script

/-- What operations do to the world, and what can be done to it meanwhile. -/
structure Surroundings (W Op A E : Type*) where
  /-- The world once the operation is called. -/
  initiate : W → Op → W
  /-- The operation completes with an answer. -/
  complete : W → Op → A → Option W
  /-- Something happens while the operation is pending. -/
  disturb : W → Op → E → Option W
  /-- Something happens while the answer waits to be delivered; the answer can
  still change. -/
  late : W → Op → A → E → Option (W × A)

/-- Where a routine is: through, at an operation, or at an operation whose answer
waits to be delivered. -/
inductive Frame (W Op A α : Type*)
  | finished (a : α)
  | pending (op : Op) (k : A → Script W Op A α)
  | answered (op : Op) (a : A) (k : A → Script W Op A α)

structure Coroutine (W Op A α : Type*) where
  world : W
  frame : Frame W Op A α

/-- The result of a routine that is through. -/
def Coroutine.result (c : Coroutine W Op A α) : Option α :=
  match c.frame with
  | .finished a => some a
  | _ => none

inductive ScriptEvent (A E : Type*)
  | complete (a : A)
  | deliver
  | disturb (e : E)

namespace Surroundings

variable (S : Surroundings W Op A E)

/-- Run a script up to its next call. -/
def enter (w : W) : Script W Op A α → Coroutine W Op A α
  | .done a => ⟨w, .finished a⟩
  | .sync f k => enter (f w) (k (f w))
  | .call op k => ⟨S.initiate w op, .pending op k⟩

def step (c : Coroutine W Op A α) (e : ScriptEvent A E) : Option (Coroutine W Op A α) :=
  match c.frame, e with
  | .pending op k, .complete a => (S.complete c.world op a).map fun w => ⟨w, .answered op a k⟩
  | .pending op k, .disturb e => (S.disturb c.world op e).map fun w => ⟨w, .pending op k⟩
  | .answered op a k, .disturb e =>
    (S.late c.world op a e).map fun r => ⟨r.1, .answered op r.2 k⟩
  | .answered _ a k, .deliver => some (S.enter c.world (k a))
  | _, _ => none

/-- The worlds in which an operation called in `w` can be pending. -/
inductive Pending (op : Op) (w : W) : W → Prop
  | initiate : Pending op w (S.initiate w op)
  | disturb {w₁ w₂ : W} {e : E} :
      Pending op w w₁ → S.disturb w₁ op e = some w₂ → Pending op w w₂

/-- The answers that an operation called in `w` can have waiting, and the worlds
in which it can. -/
inductive Delivers (op : Op) (w : W) : A → W → Prop
  | complete {w₁ w₂ : W} {a : A} :
      S.Pending op w w₁ → S.complete w₁ op a = some w₂ → Delivers op w a w₂
  | late {w₁ w₂ : W} {a a' : A} {e : E} :
      Delivers op w a w₁ → S.late w₁ op a e = some (w₂, a') → Delivers op w a' w₂

/-- The weakest precondition of a script under the invariant `I` and the
postcondition `Q`. -/
def wp (I : W → Prop) : Script W Op A α → (α → W → Prop) → W → Prop
  | .done a, Q, w => I w ∧ Q a w
  | .sync f k, Q, w => wp I (k (f w)) Q (f w)
  | .call op k, Q, w =>
    (∀ w', S.Pending op w w' → I w') ∧
      ∀ a w', S.Delivers op w a w' → I w' ∧ wp I (k a) Q w'

variable {S} {I : W → Prop} {Q : α → W → Prop} {w : W}

/-! ### Rules -/

@[simp] theorem wp_done (a : α) : S.wp I (.done a) Q w ↔ I w ∧ Q a w := Iff.rfl

@[simp] theorem wp_sync (f : W → W) (k : W → Script W Op A α) :
    S.wp I (.sync f k) Q w ↔ S.wp I (k (f w)) Q (f w) := Iff.rfl

@[simp] theorem wp_look (k : W → Script W Op A α) :
    S.wp I (.look k) Q w ↔ S.wp I (k w) Q w := Iff.rfl

@[simp] theorem wp_modify (f : W → W) (p : Script W Op A α) :
    S.wp I (.modify f p) Q w ↔ S.wp I p Q (f w) := Iff.rfl

/-- Scripts compose through what holds in between. -/
theorem wp_bind {p : Script W Op A α} {f : α → Script W Op A β} {R : β → W → Prop}
    (hp : S.wp I p Q w) (hf : ∀ a w', I w' → Q a w' → S.wp I (f a) R w') :
    S.wp I (p.bind f) R w := by
  induction p generalizing w with
  | done a => exact hf a w hp.1 hp.2
  | sync g k ih => exact ih _ hp
  | call op k ih =>
      refine ⟨hp.1, ?_⟩
      intro a w' hd
      obtain ⟨hi, hk⟩ := hp.2 a w' hd
      exact ⟨hi, ih a hk⟩

/-- A weaker invariant and a weaker postcondition. -/
theorem wp_mono {J : W → Prop} {R : α → W → Prop} {p : Script W Op A α} (hp : S.wp I p Q w)
    (hI : ∀ w', I w' → J w') (hQ : ∀ a w', Q a w' → R a w') : S.wp J p R w := by
  induction p generalizing w with
  | done a => exact ⟨hI w hp.1, hQ a w hp.2⟩
  | sync f k ih => exact ih _ hp
  | call op k ih =>
      refine ⟨fun w' h => hI w' (hp.1 w' h), ?_⟩
      intro a w' hd
      obtain ⟨hi, hk⟩ := hp.2 a w' hd
      exact ⟨hI w' hi, ih a hk⟩

/-- What is proved of a script apart holds together. -/
theorem wp_and {J : W → Prop} {R : α → W → Prop} {p : Script W Op A α} (hp : S.wp I p Q w)
    (hp' : S.wp J p R w) : S.wp (fun w => I w ∧ J w) p (fun a w => Q a w ∧ R a w) w := by
  induction p generalizing w with
  | done a => exact ⟨⟨hp.1, hp'.1⟩, hp.2, hp'.2⟩
  | sync f k ih => exact ih _ hp hp'
  | call op k ih =>
      refine ⟨fun w' h => ⟨hp.1 w' h, hp'.1 w' h⟩, ?_⟩
      intro a w' hd
      obtain ⟨hi, hk⟩ := hp.2 a w' hd
      obtain ⟨hj, hk'⟩ := hp'.2 a w' hd
      exact ⟨⟨hi, hj⟩, ih a hk hk'⟩

/-- Nothing is needed for nothing. -/
theorem wp_trivial (p : Script W Op A α) : S.wp (fun _ => True) p (fun _ _ => True) w := by
  induction p generalizing w with
  | done a => exact ⟨trivial, trivial⟩
  | sync f k ih => exact ih _
  | call op k ih => exact ⟨fun _ _ => trivial, fun a w' _ => ⟨trivial, ih a⟩⟩

/-! ### Framing -/

/-- The surroundings in a larger world, the rest of which they do not touch. -/
def framed (S : Surroundings W Op A E) (G : Type*) : Surroundings (W × G) Op A E where
  initiate v op := (S.initiate v.1 op, v.2)
  complete v op a := (S.complete v.1 op a).map fun w => (w, v.2)
  disturb v op e := (S.disturb v.1 op e).map fun w => (w, v.2)
  late v op a e := (S.late v.1 op a e).map fun r => ((r.1, v.2), r.2)

section framed

variable {G : Type*} {g : G} {v : W × G} {op : Op}

theorem pending_framed (h : (S.framed G).Pending op (w, g) v) : S.Pending op w v.1 ∧ v.2 = g := by
  induction h with
  | initiate => exact ⟨.initiate, rfl⟩
  | disturb _ hs ih =>
      obtain ⟨w₂, hw, rfl⟩ := Option.map_eq_some_iff.1 hs
      exact ⟨.disturb ih.1 hw, ih.2⟩

theorem delivers_framed {a : A} (h : (S.framed G).Delivers op (w, g) a v) :
    S.Delivers op w a v.1 ∧ v.2 = g := by
  induction h with
  | complete hp hc =>
      obtain ⟨hpend, hg⟩ := pending_framed hp
      obtain ⟨w₂, hw, rfl⟩ := Option.map_eq_some_iff.1 hc
      exact ⟨.complete hpend hw, hg⟩
  | late _ hs ih =>
      obtain ⟨⟨w₂, a'⟩, hw, heq⟩ := Option.map_eq_some_iff.1 hs
      obtain ⟨rfl, rfl⟩ := Prod.mk.inj heq
      exact ⟨.late ih.1 hw, ih.2⟩

/-- The frame rule: what a script does in its own world it does in a larger one,
and the rest stays as it is. -/
theorem wp_framed {p : Script W Op A α} {J : W × G → Prop} {R : α → W × G → Prop}
    (hp : S.wp I p Q w) (hI : ∀ w', I w' → J (w', g)) (hQ : ∀ a w', Q a w' → R a (w', g)) :
    (S.framed G).wp J p.framed R (w, g) := by
  induction p generalizing w with
  | done a => exact ⟨hI w hp.1, hQ a w hp.2⟩
  | sync f k ih => exact ih _ hp
  | call op k ih =>
      refine ⟨?_, ?_⟩
      · intro v hv
        obtain ⟨hpend, rfl⟩ := pending_framed hv
        exact hI _ (hp.1 _ hpend)
      · intro a v hv
        obtain ⟨hd, rfl⟩ := delivers_framed hv
        obtain ⟨hi, hk⟩ := hp.2 a _ hd
        exact ⟨hI _ hi, ih a hk⟩

end framed

/-! ### Going on -/

/-- A routine that goes on with another one when it is through. -/
def goOn (S : Surroundings W Op A E) (c : Coroutine W Op A α) (f : α → Script W Op A β) :
    Coroutine W Op A β :=
  match c.frame with
  | .finished a => S.enter c.world (f a)
  | .pending op k => ⟨c.world, .pending op fun a => (k a).bind f⟩
  | .answered op a k => ⟨c.world, .answered op a fun a => (k a).bind f⟩

theorem enter_bind (w : W) (p : Script W Op A α) (f : α → Script W Op A β) :
    S.enter w (p.bind f) = S.goOn (S.enter w p) f := by
  induction p generalizing w with
  | done a => rfl
  | sync g k ih => exact ih _ _
  | call op k => rfl

/-- A routine that makes a step is not through. -/
theorem running_of_step {c c' : Coroutine W Op A α} {e : ScriptEvent A E}
    (h : S.step c e = some c') : c.result = none := by
  obtain ⟨w, frame⟩ := c
  cases frame with
  | finished a => cases e <;> cases h
  | pending op k => rfl
  | answered op a k => rfl

/-- What comes behind a routine does not change its steps. -/
theorem step_goOn {c : Coroutine W Op A α} (h : c.result = none) (f : α → Script W Op A β)
    (e : ScriptEvent A E) : S.step (S.goOn c f) e = (S.step c e).map fun c' => S.goOn c' f := by
  obtain ⟨w, frame⟩ := c
  cases frame with
  | finished a => cases h
  | pending op k =>
      cases e with
      | complete a => simp only [step, goOn, Option.map_map, Function.comp_def]
      | deliver => rfl
      | disturb e => simp only [step, goOn, Option.map_map, Function.comp_def]
  | answered op a k =>
      cases e with
      | complete a => rfl
      | deliver => simp only [step, goOn, Option.map_some, enter_bind]
      | disturb e => simp only [step, goOn, Option.map_map, Function.comp_def]

/-! ### Runs -/

/-- What `wp` promises of a routine in the middle of a run. -/
def Promised (S : Surroundings W Op A E) (I : W → Prop) (Q : α → W → Prop)
    (c : Coroutine W Op A α) : Prop :=
  I c.world ∧
    match c.frame with
    | .finished a => Q a c.world
    | .pending op k =>
      ∃ w, S.Pending op w c.world ∧ S.wp I (.call op k) Q w
    | .answered op a k =>
      ∃ w, S.Delivers op w a c.world ∧ S.wp I (.call op k) Q w

theorem promised_enter {p : Script W Op A α} (h : S.wp I p Q w) :
    S.Promised I Q (S.enter w p) := by
  induction p generalizing w with
  | done a => exact h
  | sync f k ih => exact ih _ h
  | call op k => exact ⟨h.1 _ .initiate, w, .initiate, h⟩

theorem promised_step {c c' : Coroutine W Op A α} {e : ScriptEvent A E}
    (h : S.Promised I Q c) (hs : S.step c e = some c') : S.Promised I Q c' := by
  obtain ⟨w', frame⟩ := c
  obtain ⟨-, h⟩ := h
  cases frame with
  | finished a => cases e <;> cases hs
  | pending op k =>
      obtain ⟨w, hpend, hw⟩ := h
      cases e with
      | deliver => cases hs
      | complete a =>
          obtain ⟨w₂, hc, rfl⟩ := Option.map_eq_some_iff.1 hs
          have hd : S.Delivers op w a w₂ := .complete hpend hc
          exact ⟨(hw.2 a w₂ hd).1, w, hd, hw⟩
      | disturb e =>
          obtain ⟨w₂, hc, rfl⟩ := Option.map_eq_some_iff.1 hs
          have hp : S.Pending op w w₂ := .disturb hpend hc
          exact ⟨hw.1 w₂ hp, w, hp, hw⟩
  | answered op a k =>
      obtain ⟨w, hdel, hw⟩ := h
      cases e with
      | complete a => cases hs
      | deliver =>
          obtain rfl := Option.some.inj hs
          exact promised_enter (hw.2 a w' hdel).2
      | disturb e =>
          obtain ⟨⟨w₂, a'⟩, hc, rfl⟩ := Option.map_eq_some_iff.1 hs
          have hd : S.Delivers op w a' w₂ := .late hdel hc
          exact ⟨(hw.2 a' w₂ hd).1, w, hd, hw⟩

/-- In every run of a script from a world its precondition admits, the invariant
holds all along, and the postcondition when it is through. -/
theorem run_wp {p : Script W Op A α} {tr : List (Coroutine W Op A α × ScriptEvent A E)}
    {c : Coroutine W Op A α} (hr : Run S.step (S.enter w p) tr c) (h : S.wp I p Q w) :
    I c.world ∧ ∀ a, c.result = some a → Q a c.world := by
  have hp : S.Promised I Q c :=
    Run.invariant hr (promised_enter h) fun _ _ _ _ _ hc hs => promised_step hc hs
  obtain ⟨w', frame⟩ := c
  refine ⟨hp.1, ?_⟩
  intro a ha
  cases frame with
  | finished b =>
      obtain rfl : b = a := Option.some.inj ha
      exact hp.2
  | pending op k => cases ha
  | answered op b k => cases ha

end Surroundings

end Lib
