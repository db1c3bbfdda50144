import Foxy.Detail.ViaLoops

/-!
# Foxy.Detail.ViaEntries

`has_foxy_via` against the list structure of a Via field.

    Via = 1#( received-protocol RWS received-by [ RWS comment ] )

A comma separates two members unless it stands in a comment. Comments nest, and
a backslash in one quotes the next character. The scan of `has_foxy_via` knows
none of this: it finds the characters of the proxy's entry wherever they stand.
The main result says for which fields that goes wrong: those in which something
is joined to these characters, in front or behind, wherever they stand.
-/

namespace Foxy.Detail

open Http

/-! ### Members -/

/-- Where a reader of the list is. `depth` counts the comments around the
innermost one. -/
inductive ViaScan
  | text
  | comment (depth : Nat)
  /-- Behind a backslash. -/
  | quoted (depth : Nat)
  deriving Repr, DecidableEq

namespace ViaScan

def next : ViaScan → UInt8 → ViaScan
  | .text, c => if c = chr '(' then .comment 0 else .text
  | .comment depth, c =>
    if c = chr '\\' then .quoted depth
    else if c = chr '(' then .comment (depth + 1)
    else if c = chr ')' then
      match depth with
      | 0 => .text
      | depth + 1 => .comment depth
    else .comment depth
  | .quoted depth, _ => .comment depth

def after (st : ViaScan) (s : Bytes) : ViaScan := s.foldl next st

/-- What is left behind the comment the reader is in. -/
def leave : ViaScan → Bytes → Option Bytes
  | .text, s => some s
  | .comment _, [] => none
  | .quoted _, [] => none
  | .comment depth, c :: s => leave (next (.comment depth) c) s
  | .quoted depth, c :: s => leave (next (.quoted depth) c) s

end ViaScan

/-- The members of a list, the reader being at `st` with `member` read of the
current one. -/
def viaMembers : ViaScan → Bytes → Bytes → List Bytes
  | _, member, [] => [member]
  | st, member, c :: s =>
    if st = .text ∧ c = chr ',' then member :: viaMembers .text [] s
    else viaMembers (st.next c) (member ++ [c]) s

/-- `[ RWS comment ] OWS`. -/
def isTrailing (t : Bytes) : Bool :=
  t.all isOws ||
    match t.dropWhile isOws with
    | [] => false
    | c :: s => t.head?.any isOws && c == chr '(' &&
        ((ViaScan.comment 0).leave s).any fun r => r.all isOws

/-- The member is the proxy's own entry: `OWS "1.1 foxy" [ RWS comment ] OWS`. -/
def isFoxyEntry (member : Bytes) : Bool :=
  let s := member.dropWhile isOws
  iequals (s.take 8) (ascii "1.1 foxy") && isTrailing (s.drop 8)

example : (viaMembers .text [] (ascii "1.0 a (b, c), 1.1 Foxy (x\\),), 1.1 foxybar")).map isFoxyEntry =
    [false, true, false] := by decide +kernel

/-! ### What separates members -/

/-- No comma of the text separates, read from `st`. -/
def Undivided : ViaScan → Bytes → Prop
  | _, [] => True
  | st, c :: t => ¬(st = .text ∧ c = chr ',') ∧ Undivided (st.next c) t

/-- A member can end here: at the end, or at a comma outside of comments. -/
def MemberEnds (st : ViaScan) (post : Bytes) : Prop :=
  post = [] ∨ st = .text ∧ post.head? = some (chr ',')

theorem ViaScan.after_cons (st : ViaScan) (c : UInt8) (s : Bytes) :
    st.after (c :: s) = (st.next c).after s := rfl

theorem ViaScan.after_append (st : ViaScan) (s t : Bytes) :
    st.after (s ++ t) = (st.after s).after t := List.foldl_append

theorem undivided_append {st : ViaScan} {s t : Bytes} :
    Undivided st (s ++ t) ↔ Undivided st s ∧ Undivided (st.after s) t := by
  induction s generalizing st with
  | nil => simp [Undivided, ViaScan.after]
  | cons c s ih => rw [List.cons_append, Undivided, Undivided, ih, ViaScan.after_cons, and_assoc]

/-- The members are the texts between separating commas. -/
theorem mem_viaMembers {st : ViaScan} {member s m : Bytes} :
    m ∈ viaMembers st member s ↔
      (∃ t post, s = t ++ post ∧ m = member ++ t ∧ Undivided st t ∧ MemberEnds (st.after t) post) ∨
      ∃ pre post, s = pre ++ chr ',' :: (m ++ post) ∧ st.after pre = .text ∧
        Undivided .text m ∧ MemberEnds (ViaScan.text.after m) post := by
  induction s generalizing st member with
  | nil =>
      rw [viaMembers, List.mem_singleton]
      constructor
      · rintro rfl
        exact Or.inl ⟨[], [], rfl, (List.append_nil _).symm, trivial, Or.inl rfl⟩
      · rintro (⟨t, post, hs, rfl, -⟩ | ⟨pre, post, hs, -⟩)
        · obtain ⟨rfl, -⟩ := List.append_eq_nil_iff.1 hs.symm
          exact List.append_nil _
        · simp at hs
  | cons c s ih =>
      rw [viaMembers]
      by_cases hsep : st = .text ∧ c = chr ','
      · rw [if_pos hsep, List.mem_cons, ih]
        obtain ⟨rfl, rfl⟩ := hsep
        constructor
        · rintro (rfl | ⟨t, post, rfl, rfl, hund, hends⟩ | ⟨pre, post, rfl, hafter, hund, hends⟩)
          · exact Or.inl ⟨[], _, rfl, (List.append_nil _).symm, trivial, Or.inr ⟨rfl, rfl⟩⟩
          · exact Or.inr ⟨[], post, rfl, rfl, hund, hends⟩
          · exact Or.inr ⟨chr ',' :: pre, post, rfl, hafter, hund, hends⟩
        · rintro (⟨t, post, hs, rfl, hund, -⟩ | ⟨pre, post, hs, hafter, hund, hends⟩)
          · cases t with
            | nil => exact Or.inl (List.append_nil _)
            | cons d t =>
                obtain ⟨rfl, -⟩ := List.cons.inj hs
                exact absurd ⟨rfl, rfl⟩ hund.1
          · cases pre with
            | nil =>
                obtain ⟨-, rfl⟩ := List.cons.inj hs
                exact Or.inr (Or.inl ⟨m, post, rfl, rfl, hund, hends⟩)
            | cons d pre =>
                obtain ⟨rfl, rfl⟩ := List.cons.inj hs
                exact Or.inr (Or.inr ⟨pre, post, rfl, hafter, hund, hends⟩)
      · rw [if_neg hsep, ih]
        constructor
        · rintro (⟨t, post, rfl, rfl, hund, hends⟩ | ⟨pre, post, rfl, hafter, hund, hends⟩)
          · exact Or.inl ⟨c :: t, post, rfl, by simp, ⟨hsep, hund⟩, hends⟩
          · exact Or.inr ⟨c :: pre, post, rfl, hafter, hund, hends⟩
        · rintro (⟨t, post, hs, rfl, hund, hends⟩ | ⟨pre, post, hs, hafter, hund, hends⟩)
          · cases t with
            | nil =>
                -- the member would end at a comma that separates
                rw [List.nil_append] at hs
                subst hs
                rcases hends with hnil | ⟨htext, hcomma⟩
                · cases hnil
                · exact absurd ⟨htext, Option.some.inj hcomma⟩ hsep
            | cons d t =>
                obtain ⟨rfl, rfl⟩ := List.cons.inj hs
                exact Or.inl ⟨t, post, rfl, by simp, hund.2, hends⟩
          · cases pre with
            | nil =>
                obtain ⟨rfl, -⟩ := List.cons.inj hs
                exact absurd ⟨hafter, rfl⟩ hsep
            | cons d pre =>
                obtain ⟨rfl, rfl⟩ := List.cons.inj hs
                exact Or.inr ⟨pre, post, rfl, hafter, hund, hends⟩

/-! ### Entries -/

/-- Text without commas and parentheses leaves the reader where it is. -/
theorem undivided_plain {w : Bytes} (h : ∀ c ∈ w, c ≠ chr ',' ∧ c ≠ chr '(') :
    Undivided .text w ∧ ViaScan.text.after w = .text := by
  induction w with
  | nil => exact ⟨trivial, rfl⟩
  | cons c w ih =>
      obtain ⟨hcomma, hopen⟩ := h c List.mem_cons_self
      have hnext : ViaScan.text.next c = .text := if_neg hopen
      have hrest := ih fun d hd => h d (List.mem_cons_of_mem _ hd)
      rw [Undivided, ViaScan.after_cons, hnext]
      exact ⟨⟨fun hsep => hcomma hsep.2, hrest.1⟩, hrest.2⟩

theorem undivided_ows {w : Bytes} (h : w.all isOws = true) :
    Undivided .text w ∧ ViaScan.text.after w = .text := by
  refine undivided_plain fun c hc => ?_
  have hows := List.all_eq_true.1 h c hc
  constructor <;> rintro rfl <;> revert hows <;> decide

/-- What stands before the rest that `leave` returns belongs to the comment. -/
theorem ViaScan.leave_eq_some {st : ViaScan} {s r : Bytes} (h : st.leave s = some r) :
    ∃ body, s = body ++ r ∧ Undivided st body ∧ st.after body = .text ∧
      ∀ x, st.leave (body ++ x) = some x := by
  induction s generalizing st with
  | nil =>
      cases st with
      | text => exact ⟨[], Option.some.inj h, trivial, rfl, fun _ => by simp [ViaScan.leave]⟩
      | comment _ => cases h
      | quoted _ => cases h
  | cons c s ih =>
      cases st with
      | text => exact ⟨[], Option.some.inj h, trivial, rfl, fun _ => by simp [ViaScan.leave]⟩
      | comment depth =>
          obtain ⟨body, rfl, hund, hafter, hleave⟩ := ih h
          exact ⟨c :: body, rfl, ⟨by simp, hund⟩, hafter, hleave⟩
      | quoted depth =>
          obtain ⟨body, rfl, hund, hafter, hleave⟩ := ih h
          exact ⟨c :: body, rfl, ⟨by simp, hund⟩, hafter, hleave⟩

theorem dropWhile_ows {ws t : Bytes} (hws : ws.all isOws = true) (ht : t.head?.any isOws = false) :
    (ws ++ t).dropWhile isOws = t := by
  rw [List.dropWhile_append_of_pos (List.all_eq_true.1 hws)]
  cases t with
  | nil => rfl
  | cons c t => exact List.dropWhile_cons_of_neg (by simpa using ht)

theorem isTrailing_iff {t : Bytes} : isTrailing t = true ↔ t.all isOws = true ∨
    ∃ ws s r, t = ws ++ chr '(' :: s ∧ ws ≠ [] ∧ ws.all isOws = true ∧
      (ViaScan.comment 0).leave s = some r ∧ r.all isOws = true := by
  rw [isTrailing, Bool.or_eq_true]
  refine or_congr_right ⟨fun h => ?_, fun h => ?_⟩
  · have hsplit : t = t.takeWhile isOws ++ t.dropWhile isOws := List.takeWhile_append_dropWhile.symm
    have hws : (t.takeWhile isOws).all isOws = true := List.all_takeWhile
    cases hd : t.dropWhile isOws with
    | nil => simp [hd] at h
    | cons c s =>
        simp only [hd, Bool.and_eq_true, beq_iff_eq, Option.any_eq_true] at h
        obtain ⟨⟨⟨d, hhead, hows⟩, rfl⟩, r, hleave, hr⟩ := h
        refine ⟨_, s, r, by rw [← hd]; exact hsplit, ?_, hws, hleave, hr⟩
        cases t with
        | nil => cases hhead
        | cons e t =>
            obtain rfl := Option.some.inj hhead
            simp [hows]
  · obtain ⟨ws, s, r, rfl, hne, hws, hleave, hr⟩ := h
    rw [dropWhile_ows hws rfl]
    cases ws with
    | nil => exact absurd rfl hne
    | cons d ws =>
        have hd : isOws d = true := List.all_eq_true.1 hws d List.mem_cons_self
        simp only [List.cons_append, List.head?_cons, Option.any_some, hd, beq_self_eq_true,
          Bool.true_and, hleave]
        exact hr

/-- A trailing comment hides its commas and is closed. -/
theorem undivided_trailing {t : Bytes} (h : isTrailing t = true) :
    Undivided .text t ∧ ViaScan.text.after t = .text := by
  rcases isTrailing_iff.1 h with hows | ⟨ws, s, r, rfl, -, hws, hleave, hr⟩
  · exact undivided_ows hows
  · obtain ⟨body, rfl, hund, hafter, -⟩ := ViaScan.leave_eq_some hleave
    obtain ⟨hwsund, hwsafter⟩ := undivided_ows hws
    obtain ⟨hrund, hrafter⟩ := undivided_ows hr
    have hnext : ViaScan.text.next (chr '(') = .comment 0 := rfl
    rw [undivided_append, ViaScan.after_append, hwsafter, Undivided, ViaScan.after_cons, hnext,
      undivided_append, ViaScan.after_append, hafter]
    exact ⟨⟨hwsund, by decide, hund, hrund⟩, hrafter⟩

/-- The characters of the proxy's entry. -/
theorem foxy_chars {w : Bytes} (h : iequals w (ascii "1.1 foxy") = true) :
    w.length = 8 ∧ ∀ c ∈ w, c ≠ chr ',' ∧ c ≠ chr '(' := by
  rw [iequals, beq_iff_eq] at h
  constructor
  · have hlen := congrArg List.length h
    rw [List.length_map] at hlen
    exact hlen
  · intro c hc
    have hmem : lower c ∈ (ascii "1.1 foxy").map lower := h ▸ List.mem_map_of_mem hc
    constructor <;> rintro rfl <;> revert hmem <;> decide

theorem head_foxy {w : Bytes} (h : iequals w (ascii "1.1 foxy") = true) :
    ∃ c w', w = c :: w' ∧ isOws c = false := by
  cases w with
  | nil => exact absurd h (by decide)
  | cons c w =>
      refine ⟨c, w, rfl, ?_⟩
      rw [iequals, beq_iff_eq] at h
      have hhead : lower c = lower (chr '1') := (List.cons.inj h).1
      rw [Bool.eq_false_iff]
      intro hows
      rw [isOws, Bool.or_eq_true, beq_iff_eq, beq_iff_eq] at hows
      rcases hows with rfl | rfl <;> revert hhead <;> decide

theorem isFoxyEntry_iff {m : Bytes} :
    isFoxyEntry m = true ↔ ∃ ws w t, m = ws ++ w ++ t ∧ ws.all isOws = true ∧
      iequals w (ascii "1.1 foxy") = true ∧ isTrailing t = true := by
  constructor
  · intro h
    simp only [isFoxyEntry, Bool.and_eq_true] at h
    refine ⟨m.takeWhile isOws, (m.dropWhile isOws).take 8, (m.dropWhile isOws).drop 8, ?_,
      List.all_takeWhile, h.1, h.2⟩
    rw [List.append_assoc, List.take_append_drop, List.takeWhile_append_dropWhile]
  · intro h
    obtain ⟨ws, w, t, rfl, hws, hw, ht⟩ := h
    have hlen := (foxy_chars hw).1
    have hdrop : (ws ++ w ++ t).dropWhile isOws = w ++ t := by
      obtain ⟨c, w', rfl, hc⟩ := head_foxy hw
      rw [List.append_assoc, dropWhile_ows hws (by simp [hc])]
    rw [isFoxyEntry, hdrop, List.take_left' hlen, List.drop_left' hlen, hw, ht]
    rfl

/-! ### Occurrences that stand alone -/

/-- Whitespace since the beginning or since a comma outside of comments. -/
def OpensMember (pre : Bytes) : Prop :=
  ∃ p ws, pre = p ++ ws ∧ ws.all isOws = true ∧
    (p = [] ∨ ∃ q, p = q ++ [chr ','] ∧ ViaScan.text.after q = .text)

/-- Whitespace and at most one comment up to a comma or the end. -/
def ClosesMember (post : Bytes) : Prop :=
  ∃ t r, post = t ++ r ∧ isTrailing t = true ∧ (r = [] ∨ r.head? = some (chr ','))

/-- The text is somewhere in the value. -/
def Occurs (value : Bytes) : Prop :=
  ∃ pre w post, value = pre ++ w ++ post ∧ iequals w (ascii "1.1 foxy") = true

/-- Somewhere it has nothing but delimiters around it. -/
def OccursAlone (value : Bytes) : Prop :=
  ∃ pre w post, value = pre ++ w ++ post ∧ iequals w (ascii "1.1 foxy") = true ∧
    OpensMember pre ∧ ClosesMember post

theorem undivided_entry {ws w t : Bytes} (hws : ws.all isOws = true)
    (hw : iequals w (ascii "1.1 foxy") = true) (ht : isTrailing t = true) :
    Undivided .text (ws ++ w ++ t) ∧ ViaScan.text.after (ws ++ w ++ t) = .text := by
  obtain ⟨hwsund, hwsafter⟩ := undivided_ows hws
  obtain ⟨hwund, hwafter⟩ := undivided_plain (foxy_chars hw).2
  obtain ⟨htund, htafter⟩ := undivided_trailing ht
  have hafter : ViaScan.text.after (ws ++ w) = .text := by
    rw [ViaScan.after_append, hwsafter, hwafter]
  rw [undivided_append, undivided_append, hafter, hwsafter, ViaScan.after_append (t := t), hafter]
  exact ⟨⟨⟨hwsund, hwund⟩, htund⟩, htafter⟩

/-- A member is the proxy's entry exactly when the text stands alone. -/
theorem exists_entry_iff (value : Bytes) :
    (∃ m ∈ viaMembers .text [] value, isFoxyEntry m = true) ↔ OccursAlone value := by
  constructor
  · intro h
    obtain ⟨m, hm, hentry⟩ := h
    obtain ⟨ws, w, t, rfl, hws, hw, ht⟩ := isFoxyEntry_iff.1 hentry
    have hcloses : ∀ {post}, MemberEnds (ViaScan.text.after (ws ++ w ++ t)) post →
        ClosesMember (t ++ post) := by
      intro post hends
      refine ⟨t, post, rfl, ht, ?_⟩
      rcases hends with hnil | ⟨-, hcomma⟩
      · exact Or.inl hnil
      · exact Or.inr hcomma
    rcases mem_viaMembers.1 hm with ⟨m, post, rfl, rfl, -, hends⟩ | ⟨pre, post, rfl, hafter, -, hends⟩
    · exact ⟨ws, w, t ++ post, by simp, hw, ⟨[], ws, rfl, hws, Or.inl rfl⟩, hcloses hends⟩
    · exact ⟨pre ++ [chr ','] ++ ws, w, t ++ post, by simp, hw,
        ⟨pre ++ [chr ','], ws, rfl, hws, Or.inr ⟨pre, rfl, hafter⟩⟩, hcloses hends⟩
  · intro h
    obtain ⟨pre, w, post, rfl, hw, ⟨p, ws, rfl, hws, hp⟩, t, r, rfl, ht, hr⟩ := h
    obtain ⟨hund, hafter⟩ := undivided_entry hws hw ht
    have hends : MemberEnds (ViaScan.text.after (ws ++ w ++ t)) r := by
      rcases hr with hnil | hcomma
      · exact Or.inl hnil
      · exact Or.inr ⟨hafter, hcomma⟩
    refine ⟨ws ++ w ++ t, mem_viaMembers.2 ?_, isFoxyEntry_iff.2 ⟨ws, w, t, rfl, hws, hw, ht⟩⟩
    rcases hp with rfl | ⟨q, rfl, hq⟩
    · exact Or.inl ⟨ws ++ w ++ t, r, by simp, rfl, hund, hends⟩
    · exact Or.inr ⟨q, r, by simp, hq, hund, hends⟩

/-! ### Occurrences with something joined to them -/

/-- Before the text, up to whitespace, stands a character that no list member
begins behind: one of a version, of a name or of a comment. -/
def JoinedInFront (pre : Bytes) : Prop :=
  ∃ q c ws, pre = q ++ c :: ws ∧ ws.all isOws = true ∧ isOws c = false ∧
    (c ≠ chr ',' ∨ ViaScan.text.after q ≠ .text)

/-- Behind the text the member goes on. -/
inductive RunsOn : Bytes → Prop
  /-- At once, with a longer name. -/
  | name {c : UInt8} {t : Bytes} : isOws c = false → c ≠ chr ',' → RunsOn (c :: t)
  /-- With another word. -/
  | word {ws t : Bytes} {c : UInt8} : ws.all isOws = true → isOws c = false → c ≠ chr ',' →
      c ≠ chr '(' → RunsOn (ws ++ c :: t)
  /-- With a comment that is not closed. -/
  | unclosed {ws s : Bytes} : ws.all isOws = true → (ViaScan.comment 0).leave s = none →
      RunsOn (ws ++ chr '(' :: s)
  /-- With a comment and more behind it. -/
  | behind {ws s ws' t : Bytes} {c : UInt8} : ws.all isOws = true →
      (ViaScan.comment 0).leave s = some (ws' ++ c :: t) → ws'.all isOws = true →
      isOws c = false → c ≠ chr ',' → RunsOn (ws ++ chr '(' :: s)

/-- An occurrence of the text with something else joined to it. -/
def Glued (pre post : Bytes) : Prop := JoinedInFront pre ∨ RunsOn post

/-- Whitespace, and behind it what begins with none. -/
theorem ows_split (s : Bytes) :
    ∃ ws t, s = ws ++ t ∧ ws.all isOws = true ∧ t.head?.any isOws = false := by
  refine ⟨s.takeWhile isOws, s.dropWhile isOws, List.takeWhile_append_dropWhile.symm,
    List.all_takeWhile, ?_⟩
  have hhead := List.head?_dropWhile_not isOws s
  cases hdrop : (s.dropWhile isOws).head? with
  | none => rfl
  | some c => simpa [hdrop] using hhead

/-- The same from the end. -/
theorem split_ows (pre : Bytes) : ∃ p ws, pre = p ++ ws ∧ ws.all isOws = true ∧
    (p = [] ∨ ∃ q c, p = q ++ [c] ∧ isOws c = false) := by
  obtain ⟨ws, t, heq, hws, ht⟩ := ows_split pre.reverse
  refine ⟨t.reverse, ws.reverse, ?_, by rwa [List.all_reverse], ?_⟩
  · rw [← List.reverse_append, ← heq, List.reverse_reverse]
  · cases t with
    | nil => exact Or.inl rfl
    | cons c t => exact Or.inr ⟨t.reverse, c, List.reverse_cons, by simpa using ht⟩

theorem joinedInFront_iff (pre : Bytes) : JoinedInFront pre ↔ ¬OpensMember pre := by
  have hcomma : isOws (chr ',') = false := by decide
  constructor
  · intro h hopens
    obtain ⟨q, c, ws, rfl, hws, hc, hjoin⟩ := h
    obtain ⟨p, ws', heq, hws', hp⟩ := hopens
    -- read backwards, both ways stop at the same character
    have hback := congrArg (fun s => s.reverse.dropWhile isOws) heq
    simp only [List.reverse_append, List.reverse_cons, List.append_assoc, List.singleton_append] at hback
    rw [dropWhile_ows (by simpa using hws) (by simpa using hc)] at hback
    rcases hp with rfl | ⟨q', rfl, hq'⟩
    · rw [dropWhile_ows (by simpa using hws') rfl] at hback
      cases hback
    · rw [List.reverse_append, List.reverse_singleton, List.singleton_append,
        dropWhile_ows (by simpa using hws') (by simpa using hcomma)] at hback
      obtain ⟨rfl, hrev⟩ := List.cons.inj hback
      obtain rfl : q = q' := List.reverse_injective hrev
      rcases hjoin with hne | hne
      · exact hne rfl
      · exact hne hq'
  · intro h
    obtain ⟨p, ws, rfl, hws, hp⟩ := split_ows pre
    rcases hp with rfl | ⟨q, c, rfl, hc⟩
    · exact absurd ⟨[], ws, rfl, hws, Or.inl rfl⟩ h
    · refine ⟨q, c, ws, by simp, hws, hc, ?_⟩
      by_contra hneg
      simp only [not_or, not_not] at hneg
      obtain ⟨rfl, hq⟩ := hneg
      exact h ⟨q ++ [chr ','], ws, rfl, hws, Or.inr ⟨q, rfl, hq⟩⟩

/-- Behind whitespace the text goes on with something other than a comma. -/
theorem RunsOn.dropWhile_eq {post : Bytes} (h : RunsOn post) :
    ∃ c t, post.dropWhile isOws = c :: t ∧ c ≠ chr ',' := by
  have hopen : isOws (chr '(') = false := by decide
  cases h with
  | @name c t hc hne => exact ⟨c, t, List.dropWhile_cons_of_neg (by simp [hc]), hne⟩
  | @word ws t c hws hc hne _ => exact ⟨c, t, dropWhile_ows hws (by simpa using hc), hne⟩
  | @unclosed ws s hws _ => exact ⟨_, s, dropWhile_ows hws (by simpa using hopen), by decide⟩
  | @behind ws s _ _ _ hws _ _ _ _ =>
      exact ⟨_, s, dropWhile_ows hws (by simpa using hopen), by decide⟩

/-- A comment that is closed, and nothing to run on with. -/
theorem not_runsOn_comment {ws s r : Bytes} (hne : ws ≠ []) (hws : ws.all isOws = true)
    (hleave : (ViaScan.comment 0).leave s = some r) (hr : (r.dropWhile isOws).head?.all (· == chr ',')) :
    ¬RunsOn (ws ++ chr '(' :: s) := by
  have hopen : isOws (chr '(') = false := by decide
  have hdrop : (ws ++ chr '(' :: s).dropWhile isOws = chr '(' :: s :=
    dropWhile_ows hws (by simpa using hopen)
  intro h
  generalize hpost : ws ++ chr '(' :: s = post at h hdrop
  cases h with
  | @name c t hc _ =>
      cases ws with
      | nil => exact hne rfl
      | cons d ws =>
          obtain ⟨rfl, -⟩ := List.cons.inj hpost
          rw [List.all_eq_true.1 hws d List.mem_cons_self] at hc
          cases hc
  | @word ws' t c hws' hc _ hnopen =>
      rw [dropWhile_ows hws' (by simpa using hc)] at hdrop
      exact hnopen (List.cons.inj hdrop).1
  | @unclosed ws' s' hws' hnone =>
      rw [dropWhile_ows hws' (by simpa using hopen)] at hdrop
      rw [(List.cons.inj hdrop).2, hleave] at hnone
      cases hnone
  | @behind ws' s' ws'' t c hws' hsome hws'' hc hcomma =>
      rw [dropWhile_ows hws' (by simpa using hopen)] at hdrop
      rw [(List.cons.inj hdrop).2, hleave, Option.some.injEq] at hsome
      rw [hsome, dropWhile_ows hws'' (by simpa using hc)] at hr
      exact hcomma (by simpa using hr)

theorem not_closesMember {post : Bytes} (h : RunsOn post) : ¬ClosesMember post := by
  have hcomma : isOws (chr ',') = false := by decide
  intro hcloses
  obtain ⟨t, r, rfl, ht, hr⟩ := hcloses
  have hhead : r.head?.any isOws = false := by
    rcases hr with rfl | hr
    · rfl
    · simp [hr, hcomma]
  rcases isTrailing_iff.1 ht with hows | ⟨ws, s, r', rfl, hne, hws, hleave, hr'⟩
  · obtain ⟨c, x, hdrop, hc⟩ := h.dropWhile_eq
    rw [dropWhile_ows hows hhead] at hdrop
    rcases hr with rfl | hr
    · cases hdrop
    · rw [hdrop] at hr
      exact hc (Option.some.inj hr)
  · obtain ⟨body, rfl, -, -, hbody⟩ := ViaScan.leave_eq_some hleave
    rw [List.append_assoc, List.cons_append, List.append_assoc] at h
    refine not_runsOn_comment hne hws (hbody (r' ++ r)) ?_ h
    rw [dropWhile_ows hr' hhead]
    rcases hr with rfl | hr
    · rfl
    · simp [hr]

theorem runsOn_of_not {post : Bytes} (h : ¬ClosesMember post) : RunsOn post := by
  obtain ⟨ws, t, rfl, hws, ht⟩ := ows_split post
  cases t with
  | nil => exact absurd ⟨ws, [], rfl, isTrailing_iff.2 (Or.inl hws), Or.inl rfl⟩ h
  | cons c s =>
      have hc : isOws c = false := by simpa using ht
      by_cases hcomma : c = chr ','
      · subst hcomma
        exact absurd ⟨ws, _, rfl, isTrailing_iff.2 (Or.inl hws), Or.inr rfl⟩ h
      by_cases hopen : c = chr '('
      · subst hopen
        cases ws with
        | nil => exact .name hc hcomma
        | cons d ws =>
            cases hleave : (ViaScan.comment 0).leave s with
            | none => exact .unclosed hws hleave
            | some r =>
                obtain ⟨ws', t, rfl, hws', ht'⟩ := ows_split r
                obtain ⟨body, rfl, -, -, hbody⟩ := ViaScan.leave_eq_some hleave
                have htrail : isTrailing (d :: ws ++ chr '(' :: (body ++ ws')) = true :=
                  isTrailing_iff.2 (Or.inr ⟨d :: ws, _, ws', rfl, by simp, hws, hbody ws', hws'⟩)
                cases t with
                | nil => exact absurd ⟨_, [], by simp, htrail, Or.inl rfl⟩ h
                | cons c' t =>
                    by_cases hcomma' : c' = chr ','
                    · subst hcomma'
                      exact absurd ⟨_, chr ',' :: t, by simp, htrail, Or.inr rfl⟩ h
                    · exact .behind hws hleave hws' (by simpa using ht') hcomma'
      · exact .word hws hc hcomma hopen

theorem glued_iff {pre post : Bytes} :
    Glued pre post ↔ ¬(OpensMember pre ∧ ClosesMember post) := by
  rw [not_and_or, Glued, joinedInFront_iff]
  exact or_congr_right ⟨not_closesMember, runsOn_of_not⟩

/-! ### False alarms -/

/-- Some member of some Via field is the proxy's own entry. -/
def HasEntry (fields : Fields) : Prop :=
  ∃ f ∈ fields.equalRange .via, ∃ m ∈ viaMembers .text [] f.value, isFoxyEntry m = true

/-- `has_foxy_via` raises a false alarm exactly for the fields in which the
characters of the proxy's entry occur, and wherever they do, something else is
joined to them. -/
theorem hasFoxyVia_entry_iff (fields : Fields) :
    (hasFoxyVia fields = true → HasEntry fields) ↔
      ¬((∃ f ∈ fields.equalRange .via, Occurs f.value) ∧
        ∀ f ∈ fields.equalRange .via, ∀ pre w post, f.value = pre ++ w ++ post →
          iequals w (ascii "1.1 foxy") = true → Glued pre post) := by
  have hfound : hasFoxyVia fields = true ↔ ∃ f ∈ fields.equalRange .via, Occurs f.value := by
    rw [hasFoxyVia, List.any_eq_true]
    exact exists_congr fun f => and_congr_right fun _ => isSome_foxyVia f.value
  have hentry : ¬HasEntry fields ↔ ∀ f ∈ fields.equalRange .via, ∀ pre w post,
      f.value = pre ++ w ++ post → iequals w (ascii "1.1 foxy") = true → Glued pre post := by
    constructor
    · intro hno f hf pre w post hv hw
      rw [glued_iff]
      intro halone
      exact hno ⟨f, hf, (exists_entry_iff _).2 ⟨pre, w, post, hv, hw, halone.1, halone.2⟩⟩
    · intro hall hentry
      obtain ⟨f, hf, hm⟩ := hentry
      obtain ⟨pre, w, post, hv, hw, hopens, hcloses⟩ := (exists_entry_iff _).1 hm
      exact glued_iff.1 (hall f hf pre w post hv hw) ⟨hopens, hcloses⟩
  rw [hfound, ← hentry, not_and, not_not]

/-- Another proxy's name, and another version, that the characters are part of. -/
theorem hasFoxyVia_false_alarm :
    ¬(hasFoxyVia [⟨ascii "Via", ascii "1.1 foxybar"⟩] = true →
        HasEntry [⟨ascii "Via", ascii "1.1 foxybar"⟩]) ∧
      ¬(hasFoxyVia [⟨ascii "Via", ascii "11.1 foxy"⟩] = true →
        HasEntry [⟨ascii "Via", ascii "11.1 foxy"⟩]) := by
  simp only [HasEntry]
  decide +kernel

end Foxy.Detail
