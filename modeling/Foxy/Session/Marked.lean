import Foxy.Session.Basic

/-!
# Foxy.Session.Marked

Operations made of the routines of a session and of the user's handler
(`server_op`, `speak_op`). What such an operation itself does is marked beside
the session, where the handler cannot reach it.
-/

namespace Foxy

open Lib Session

variable {M : Type}

/-- A session with the marks of the operation it belongs to. -/
abbrev Marked (M : Type) := Session × List M

abbrev MarkedScript (M : Type) := Script (Marked M) SessionOp Answer Outcome

/-- The surroundings of such an operation. -/
abbrev markedNet (M : Type) : Surroundings (Marked M) SessionOp Answer Unit := net.framed (List M)

def mark (m : M) (v : Marked M) : Marked M := (v.1, v.2 ++ [m])

/-- Go on where a routine has completed; what it throws goes through. -/
def andThen (p : Routine Outcome) (k : Answer → MarkedScript M) : MarkedScript M :=
  p.framed.bind fun o =>
    match o with
    | .completed a => k a
    | _ => .done o

section lives

-- what the operation marks in the course of its life, and what holds of the
-- session at its end
variable {Life : List M → Prop} {End : Answer → Session → Prop}

/-- What is marked so far is the beginning of a life. -/
def Living (Life : List M → Prop) (marks : List M) : Prop := ∃ life, Life life ∧ marks <+: life

/-- An operation that is through has had a whole life. -/
def Lived (Life : List M → Prop) (End : Answer → Session → Prop) (o : Outcome)
    (v : Marked M) : Prop :=
  ∀ a, o = .completed a → Life v.2 ∧ End a v.1

theorem living {marks rest : List M} (h : Life (marks ++ rest)) : Living Life marks :=
  ⟨marks ++ rest, h, List.prefix_append _ _⟩

/-- A routine of the session between two marks. -/
theorem wp_andThen {I : Session → Prop} {Q : Outcome → Session → Prop} {s : Session}
    {p : Routine Outcome} {marks : List M} {k : Answer → MarkedScript M} (hp : net.wp I p Q s)
    (hliving : Living Life marks)
    (hk : ∀ a s', Q (.completed a) s' →
      (markedNet M).wp (fun v => Living Life v.2) (k a) (Lived Life End) (s', marks)) :
    (markedNet M).wp (fun v => Living Life v.2) (andThen p k) (Lived Life End) (s, marks) := by
  have hframed : (markedNet M).wp (fun v => Living Life v.2) p.framed
      (fun o v => Q o v.1 ∧ v.2 = marks) (s, marks) :=
    Surroundings.wp_framed hp (fun _ _ => hliving) fun _ _ h => ⟨h, rfl⟩
  refine Surroundings.wp_bind hframed ?_
  intro o v hi hQ
  obtain ⟨s', marks'⟩ := v
  obtain ⟨hQ, rfl⟩ := hQ
  cases o with
  | completed a => exact hk a s' hQ
  | threw ec => exact ⟨hi, fun a ha => nomatch ha⟩
  | terminated => exact ⟨hi, fun a ha => nomatch ha⟩

end lives

end Foxy
