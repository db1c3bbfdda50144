import Mathlib.Data.FinEnum
import Foxy.Uri.Split

/-!
# Foxy.Uri.Addresses

`IPv6address` of RFC 3986, appendix A, and the rule `ip_v6_address` of
`foxy/uri.hpp` on its words.

The source writes the nine alternatives down for a parser that does not come
back to an alternative which has matched. What stands before `::` then decides
which alternatives are tried on what stands behind it, and on some words one of
them is content with a part.
-/

namespace Foxy.Uri

open Peg X3

/-! ### The grammar of the RFC -/

/-- `h16 = 1*4HEXDIG`. -/
structure HexGroup where
  text : Bytes
  digits : ∀ c ∈ text, isXdigit c.toNat = true
  length_pos : 1 ≤ text.length
  length_le : text.length ≤ 4

/-- A decimal digit. -/
def numeral (n : Nat) : UInt8 := chr '0' + UInt8.ofNat n

/-- `dec-octet`. -/
inductive DecOctet
  /-- `DIGIT`. -/
  | digit (d : Fin 10)
  /-- `%x31-39 DIGIT`. -/
  | tens (t : Fin 9) (d : Fin 10)
  /-- `"1" 2DIGIT`. -/
  | hundred (t d : Fin 10)
  /-- `"2" %x30-34 DIGIT`. -/
  | twoHundred (t : Fin 5) (d : Fin 10)
  /-- `"25" %x30-35`. -/
  | top (d : Fin 6)

def DecOctet.text : DecOctet → Bytes
  | .digit d => [numeral d]
  | .tens t d => [numeral (t + 1), numeral d]
  | .hundred t d => [chr '1', numeral t, numeral d]
  | .twoHundred t d => [chr '2', numeral t, numeral d]
  | .top d => [chr '2', chr '5', numeral d]

/-- `IPv4address = dec-octet "." dec-octet "." dec-octet "." dec-octet`. -/
structure DottedQuad where
  a : DecOctet
  b : DecOctet
  c : DecOctet
  d : DecOctet

/-- What stands behind the first octet. -/
def DottedQuad.tail (q : DottedQuad) : Bytes :=
  chr '.' :: (q.b.text ++ chr '.' :: (q.c.text ++ chr '.' :: q.d.text))

def DottedQuad.text (q : DottedQuad) : Bytes := q.a.text ++ q.tail

/-- `ls32 = ( h16 ":" h16 ) / IPv4address`. -/
inductive Ls32
  | pair (g g' : HexGroup)
  | dotted (q : DottedQuad)

def Ls32.text : Ls32 → Bytes
  | .pair g g' => g.text ++ chr ':' :: g'.text
  | .dotted q => q.text

/-- `*( h16 ":" )`. -/
def colonEnded : List HexGroup → Bytes
  | [] => []
  | g :: gs => g.text ++ chr ':' :: colonEnded gs

/-- `*( ":" h16 )`. -/
def colonLed : List HexGroup → Bytes
  | [] => []
  | g :: gs => chr ':' :: (g.text ++ colonLed gs)

/-- `[ *( h16 ":" ) h16 ]`. -/
def colonJoined : List HexGroup → Bytes
  | [] => []
  | g :: gs => g.text ++ colonLed gs

/-- `IPv6address`. The bounds are those of the nine alternatives: with `n` groups
and an `ls32` behind `::` there are at most `5 - n` groups before it. -/
inductive IpV6
  /-- `6( h16 ":" ) ls32`. -/
  | full (gs : List HexGroup) (l : Ls32) (h : gs.length = 6)
  /-- `[ *( h16 ":" ) h16 ] "::" n( h16 ":" ) ls32`. -/
  | elided (pre gs : List HexGroup) (l : Ls32) (h : pre.length + gs.length ≤ 5)
  /-- `[ *5( h16 ":" ) h16 ] "::" h16`. -/
  | elidedOne (pre : List HexGroup) (g : HexGroup) (h : pre.length ≤ 6)
  /-- `[ *6( h16 ":" ) h16 ] "::"`. -/
  | elidedAll (pre : List HexGroup) (h : pre.length ≤ 7)

def IpV6.text : IpV6 → Bytes
  | .full gs l _ => colonEnded gs ++ l.text
  | .elided pre gs l _ => colonJoined pre ++ ascii "::" ++ (colonEnded gs ++ l.text)
  | .elidedOne pre g _ => colonJoined pre ++ ascii "::" ++ g.text
  | .elidedAll pre _ => colonJoined pre ++ ascii "::"

/-- The words the rule stops in: one group before `::`, and three and an `ls32`
behind it; or two groups and an IPv4 address behind it. -/
def IpV6.Misread : IpV6 → Prop
  | .elided pre gs (.pair _ _) _ => pre.length = 1 ∧ gs.length = 3
  | .elided pre gs (.dotted _) _ => pre.length = 1 ∧ gs.length = 3 ∨ gs.length = 2
  | _ => False

@[simp] theorem colonEnded_nil (r : Bytes) : colonEnded [] ++ r = r := rfl

@[simp] theorem colonEnded_cons (g : HexGroup) (gs : List HexGroup) (r : Bytes) :
    colonEnded (g :: gs) ++ r = g.text ++ chr ':' :: (colonEnded gs ++ r) := by
  simp only [colonEnded, List.append_assoc, List.cons_append]

@[simp] theorem Ls32.pair_text (g g' : HexGroup) (r : Bytes) :
    (Ls32.pair g g').text ++ r = g.text ++ chr ':' :: (g'.text ++ r) := by
  simp only [Ls32.text, List.append_assoc, List.cons_append]

/-! ### Groups -/

/-- No group goes on here. -/
def NotHex (r : Bytes) : Prop := ∀ c ∈ r.head?, isXdigit c.toNat = false

theorem notHex_cons {c : UInt8} (hc : isXdigit c.toNat = false) (r : Bytes) : NotHex (c :: r) := by
  intro d hd
  cases hd
  exact hc

theorem notHex_colon (r : Bytes) : NotHex (chr ':' :: r) := notHex_cons rfl r

theorem notHex_dot (r : Bytes) : NotHex (chr '.' :: r) := notHex_cons rfl r

/-- The rule takes a group. -/
theorem h16_group (g : HexGroup) {r : Bytes} (hr : NotHex r) : h16 (g.text ++ r) = some r := by
  obtain ⟨text, digits, hpos, hle⟩ := g
  cases text with
  | nil => simp at hpos
  | cons c w =>
      obtain ⟨hc, hw⟩ := List.forall_mem_cons.1 digits
      have hone : times 1 xdigit (c :: (w ++ r)) = some (w ++ r) := by
        simp only [times, seq, xdigit, satisfy, hc, if_true]
      have hroom : w.length ≤ 3 := Nat.le_of_succ_le_succ hle
      have hrest : upTo xdigit (4 - 1) (w ++ r) = r := upTo_satisfy hw hroom hr
      simp only [h16, between, seq, List.cons_append, hone, hrest]

/-- It takes nothing where no group is. -/
theorem h16_of_notHex {r : Bytes} (hr : NotHex r) : h16 r = none := by
  have hnone : xdigit r = none := by
    cases r with
    | nil => rfl
    | cons c r => simp [xdigit, satisfy, hr c rfl]
  simp only [h16, between, seq, times, hnone]

theorem lit_colon (r : Bytes) : lit ":" (chr ':' :: r) = some r := lit_append (by decide) r

theorem lit_colons (r : Bytes) : lit "::" (chr ':' :: chr ':' :: r) = some r :=
  lit_append (by decide) r

theorem lit_colon_none {r : Bytes} (hr : r.head? ≠ some (chr ':')) : lit ":" r = none :=
  lit_of_head_ne rfl hr

theorem group_head (g : HexGroup) (r : Bytes) : (g.text ++ r).head? ≠ some (chr ':') := by
  obtain ⟨text, digits, hpos, hle⟩ := g
  cases text with
  | nil => simp at hpos
  | cons c w =>
      intro hc
      obtain rfl : c = chr ':' := Option.some.inj hc
      exact absurd (digits _ List.mem_cons_self) (by decide)

/-- One colon and a group are not two colons. -/
theorem lit_colons_group (g : HexGroup) (r : Bytes) :
    lit "::" (chr ':' :: (g.text ++ r)) = none := by
  cases h : lit "::" (chr ':' :: (g.text ++ r)) with
  | none => rfl
  | some t =>
      have htext : chr ':' :: (g.text ++ r) = chr ':' :: chr ':' :: t := lit_eq_some h
      exact absurd (by rw [(List.cons.inj htext).2]; rfl) (group_head g r)

/-- A group with its colon. -/
theorem groupColon (g : HexGroup) (r : Bytes) :
    seq h16 (lit ":") (g.text ++ chr ':' :: r) = some r := by
  simp only [seq, h16_group g (notHex_colon r), lit_colon]

theorem groupColon_none (g : HexGroup) {r : Bytes} (hr : NotHex r) (hc : r.head? ≠ some (chr ':')) :
    seq h16 (lit ":") (g.text ++ r) = none := by
  simp only [seq, h16_group g hr, lit_colon_none hc]

theorem times_colonEnded (gs : List HexGroup) (k : Nat) (r : Bytes) :
    times (gs.length + k) (seq h16 (lit ":")) (colonEnded gs ++ r) =
      times k (seq h16 (lit ":")) r := by
  induction gs with
  | nil => rw [List.length_nil, Nat.zero_add, colonEnded_nil]
  | cons g gs ih =>
      rw [List.length_cons, Nat.add_right_comm, times, seq, colonEnded_cons, groupColon]
      exact ih

theorem colonEnded_append (gs gs' : List HexGroup) :
    colonEnded (gs ++ gs') = colonEnded gs ++ colonEnded gs' := by
  induction gs with
  | nil => rfl
  | cons g gs ih =>
      rw [colonEnded_cons, ← ih]
      rfl

/-- Groups and a colon, read from the other side. -/
theorem colonJoined_colon (g : HexGroup) (gs : List HexGroup) (r : Bytes) :
    colonJoined (g :: gs) ++ chr ':' :: r = colonEnded (g :: gs) ++ r := by
  induction gs generalizing g with
  | nil => simp only [colonJoined, colonLed, colonEnded, List.append_assoc, List.nil_append,
      List.cons_append]
  | cons g' gs ih =>
      have hrest := ih g'
      simp only [colonJoined, colonLed, colonEnded, List.append_assoc, List.cons_append] at hrest ⊢
      rw [hrest]

/-! ### Octets -/

/-- The character sets of an octet hold digits only. -/
theorem octetSets_digit {set : String} (hset : set ∈ ["0-5", "0-4", "1-9"]) {n : Nat}
    (hn : charSet (codes set) n = true) : isDigit n = true := by
  have hcodes : ∃ a b, codes set = [a, '-'.toNat, b] ∧ 0x30 ≤ a ∧ a ≤ b ∧ b ≤ 0x39 := by
    simp only [List.mem_cons, List.not_mem_nil, or_false] at hset
    rcases hset with rfl | rfl | rfl
    · exact ⟨0x30, 0x35, rfl, by decide⟩
    · exact ⟨0x30, 0x34, rfl, by decide⟩
    · exact ⟨0x31, 0x39, rfl, by decide⟩
  obtain ⟨a, b, heq, ha, hab, hb⟩ := hcodes
  rw [heq] at hn
  have hrange := charSet_range hab hn
  simp only [isDigit, Bool.and_eq_true, decide_eq_true_eq]
  omega

theorem decOctet_digits : Within decOctet fun c => isDigit c.toNat = true := by
  have hlits : ∀ l ∈ ["25", "2", "1"], ((ascii l).all fun c => isDigit c.toNat) = true := by decide
  refine decOctet_of (within_compositional _) (within_satisfy fun _ hc => hc) ?_ ?_
  · intro l hl s r h
    exact ⟨ascii l, lit_eq_some h, by simpa using hlits l hl⟩
  · exact fun set hset => within_satisfy fun _ hc => octetSets_digit hset hc

/-- What is no digit ends an octet. -/
theorem decOctet_local : Local (fun c => isDigit c.toNat = true) decOctet := by
  have hlits : ∀ l ∈ ["25", "2", "1"], ∀ n ∈ codes l, isDigit n = true := by decide
  refine decOctet_of (local_compositional _) (local_satisfy fun _ hc => hc) ?_ ?_
  · intro l hl
    refine local_tokens fun f hf c hc => ?_
    obtain ⟨n, hn, rfl⟩ := List.mem_map.1 hf
    rw [show c.toNat = n from beq_iff_eq.1 hc]
    exact hlits l hl n hn
  · exact fun set hset => local_satisfy fun _ hc => octetSets_digit hset hc

/-- The rule reads every numeral up to 255 to its end. -/
theorem decOctet_text (o : DecOctet) : decOctet o.text = some [] := by
  cases o with
  | digit d => revert d; decide +kernel
  | tens t d => revert t d; decide +kernel
  | hundred t d => revert t d; decide +kernel
  | twoHundred t d => revert t d; decide +kernel
  | top d => revert d; decide +kernel

/-- For `h16` an octet is a group. -/
def DecOctet.group (o : DecOctet) : HexGroup where
  text := o.text
  digits := by
    intro c hc
    rw [isXdigit, decOctet_digits.all (decOctet_text o) c hc]
    rfl
  length_pos := by cases o <;> simp [DecOctet.text]
  length_le := by cases o <;> simp [DecOctet.text]

/-- No octet goes on here. -/
theorem notDigit_of_notHex {r : Bytes} (hr : NotHex r) :
    ∀ c ∈ r.head?, ¬isDigit c.toNat = true := by
  intro c hc hdigit
  have hx := hr c hc
  rw [isXdigit, hdigit] at hx
  exact absurd hx (by simp)

theorem decOctet_append (o : DecOctet) {r : Bytes} (hr : NotHex r) :
    decOctet (o.text ++ r) = some r := by
  rw [decOctet_local o.text r (notDigit_of_notHex hr), decOctet_text]
  rfl

theorem ipV4Address_eq : ipV4Address = seq decOctet (seq (lit ".") (seq decOctet (seq (lit ".")
    (seq decOctet (seq (lit ".") decOctet))))) := by
  simp only [ipV4Address, seq_assoc]

theorem lit_dot (r : Bytes) : lit "." (chr '.' :: r) = some r := lit_append (by decide) r

theorem ipV4Address_quad (q : DottedQuad) {r : Bytes} (hr : NotHex r) :
    ipV4Address (q.text ++ r) = some r := by
  simp only [ipV4Address_eq, DottedQuad.text, DottedQuad.tail, List.append_assoc, List.cons_append,
    seq, decOctet_append _ (notHex_dot _), decOctet_append _ hr, lit_dot]

/-- Without a dot behind its first digits a text is no IPv4 address. -/
theorem ipV4Address_none {w r : Bytes} (hw : ∀ c ∈ w, isXdigit c.toNat = true) (hr : NotHex r)
    (hdot : r.head? ≠ some (chr '.')) : ipV4Address (w ++ r) = none := by
  cases h : ipV4Address (w ++ r) with
  | none => rfl
  | some t =>
      exfalso
      rw [ipV4Address_eq] at h
      obtain ⟨r₁, hoctet, hrest⟩ := seq_eq_some_iff.1 h
      obtain ⟨r₂, hlit, -⟩ := seq_eq_some_iff.1 hrest
      obtain rfl : r₁ = chr '.' :: r₂ := lit_eq_some hlit
      obtain ⟨o, htext, hdigits⟩ := decOctet_digits _ _ hoctet
      rcases List.append_eq_append_iff.1 htext with ⟨v, rfl, htail⟩ | ⟨v, rfl, htail⟩
      · cases v with
        | nil => exact hdot (by rw [htail]; rfl)
        | cons c v =>
            -- the octet would go beyond the digits
            have hc := notDigit_of_notHex hr c (by rw [htail]; rfl)
            exact hc (hdigits c (by simp))
      · cases v with
        | nil => exact hdot (by rw [← List.nil_append r, ← htail]; rfl)
        | cons c v =>
            obtain rfl : chr '.' = c := (List.cons.inj htail).1
            exact absurd (hw (chr '.') (by simp)) (by decide)

/-! ### `ls32` and its neighbours -/

/-- `ls32` takes two groups wherever they stand. -/
theorem ls32_pair (g g' : HexGroup) {r : Bytes} (hr : NotHex r) :
    ls32 (g.text ++ chr ':' :: (g'.text ++ r)) = some r := by
  simp only [ls32, alt, seq, h16_group g (notHex_colon _), lit_colon, h16_group g' hr]

/-- `h16` takes the first octet of an IPv4 address. -/
theorem h16_quad (q : DottedQuad) (r : Bytes) : h16 (q.text ++ r) = some (q.tail ++ r) := by
  rw [DottedQuad.text, List.append_assoc]
  exact h16_group q.a.group (notHex_dot _)

theorem groupColon_quad (q : DottedQuad) (r : Bytes) :
    seq h16 (lit ":") (q.text ++ r) = none := by
  rw [seq, h16_quad]
  rfl

theorem ls32_quad (q : DottedQuad) {r : Bytes} (hr : NotHex r) : ls32 (q.text ++ r) = some r := by
  have hpair : seq (seq h16 (lit ":")) h16 (q.text ++ r) = none := by
    rw [seq, groupColon_quad]
  rw [ls32, alt, hpair]
  exact ipV4Address_quad q hr

/-- It takes no single group. -/
theorem ls32_group (g : HexGroup) {r : Bytes} (hr : NotHex r)
    (hmark : ∀ c ∈ r.head?, c ≠ chr ':' ∧ c ≠ chr '.') : ls32 (g.text ++ r) = none := by
  have hcolon : r.head? ≠ some (chr ':') := fun h => (hmark _ h).1 rfl
  have hdot : r.head? ≠ some (chr '.') := fun h => (hmark _ h).2 rfl
  refine alt_eq_none_iff.2 ⟨?_, ipV4Address_none g.digits hr hdot⟩
  rw [seq, groupColon_none g hr hcolon]

theorem ls32_of_notHex {r : Bytes} (hr : NotHex r) (hdot : r.head? ≠ some (chr '.')) :
    ls32 r = none := by
  refine alt_eq_none_iff.2 ⟨?_, ipV4Address_none (w := []) (by simp) hr hdot⟩
  simp only [seq, h16_of_notHex hr]

/-- Nor a group before two colons. -/
theorem ls32_colons (g : HexGroup) (r : Bytes) :
    ls32 (g.text ++ chr ':' :: chr ':' :: r) = none := by
  refine alt_eq_none_iff.2 ⟨?_, ipV4Address_none g.digits (notHex_colon _) (by simp; decide)⟩
  simp only [seq, h16_group g (notHex_colon _), lit_colon, h16_of_notHex (notHex_colon r)]

/-! ### What stands before the two colons -/

theorem notHex_colonLed (gs : List HexGroup) (r : Bytes) :
    NotHex (colonLed gs ++ chr ':' :: r) := by
  cases gs with
  | nil => exact notHex_colon r
  | cons g gs => exact notHex_colon _

theorem upTo_colonLed (gs : List HexGroup) (k : Nat) (r : Bytes) :
    upTo (seq (lit ":") h16) k (colonLed gs ++ chr ':' :: chr ':' :: r) =
      colonLed (gs.drop k) ++ chr ':' :: chr ':' :: r := by
  induction gs generalizing k with
  | nil =>
      have hnone : seq (lit ":") h16 (chr ':' :: chr ':' :: r) = none := by
        simp only [seq, lit_colon, h16_of_notHex (notHex_colon r)]
      cases k with
      | zero => rfl
      | succ k =>
          show upTo _ (k + 1) (chr ':' :: chr ':' :: r) = chr ':' :: chr ':' :: r
          rw [upTo, hnone]
  | cons g gs ih =>
      cases k with
      | zero => rfl
      | succ k =>
          have hstep : seq (lit ":") h16 (colonLed (g :: gs) ++ chr ':' :: chr ':' :: r) =
              some (colonLed gs ++ chr ':' :: chr ':' :: r) := by
            simp only [colonLed, List.cons_append, List.append_assoc, seq, lit_colon,
              h16_group g (notHex_colonLed _ _)]
          rw [upTo, hstep]
          exact ih k

/-- `-(h16 >> repeat(0, k)[":" >> h16]) >> "::"` takes at most `k + 1` groups. -/
theorem lead_colonJoined (pre : List HexGroup) (k : Nat) (r : Bytes) :
    seq (opt (seq h16 (between 0 k (seq (lit ":") h16)))) (lit "::")
      (colonJoined pre ++ chr ':' :: chr ':' :: r) =
      if pre.length ≤ k + 1 then some r else none := by
  cases pre with
  | nil =>
      have hnone : seq h16 (between 0 k (seq (lit ":") h16)) (chr ':' :: chr ':' :: r) = none := by
        simp only [seq, h16_of_notHex (notHex_colon _)]
      simp only [colonJoined, List.nil_append, seq, opt] at hnone ⊢
      simp only [hnone, lit_colons, List.length_nil, Nat.zero_le, if_true]
  | cons g gs =>
      have hgroups : seq h16 (between 0 k (seq (lit ":") h16))
          (colonJoined (g :: gs) ++ chr ':' :: chr ':' :: r) =
          some (colonLed (gs.drop k) ++ chr ':' :: chr ':' :: r) := by
        rw [colonJoined, List.append_assoc, seq, h16_group g (notHex_colonLed _ _)]
        simp only [between, times, seq, Nat.sub_zero, upTo_colonLed]
      rw [seq, opt, hgroups]
      show lit "::" (colonLed (gs.drop k) ++ chr ':' :: chr ':' :: r) = _
      by_cases hle : gs.length ≤ k
      · rw [List.drop_of_length_le hle, if_pos (by simpa using hle)]
        exact lit_colons r
      · obtain ⟨g', gs', hdrop⟩ : ∃ g' gs', gs.drop k = g' :: gs' :=
          List.exists_cons_of_ne_nil (by rw [Ne, List.drop_eq_nil_iff]; exact hle)
        rw [hdrop, if_neg (by simpa using hle), colonLed, List.cons_append, List.append_assoc]
        exact lit_colons_group g' _

theorem colons_colonJoined (pre : List HexGroup) (r : Bytes) :
    lit "::" (colonJoined pre ++ chr ':' :: chr ':' :: r) =
      if pre.length = 0 then some r else none := by
  cases pre with
  | nil => exact lit_colons r
  | cons g gs =>
      rw [if_neg (by simp), colonJoined, List.append_assoc]
      exact lit_of_head_ne rfl (group_head g _)

theorem optGroup_colonJoined (pre : List HexGroup) (r : Bytes) :
    seq (opt h16) (lit "::") (colonJoined pre ++ chr ':' :: chr ':' :: r) =
      if pre.length ≤ 1 then some r else none := by
  have hsame : (h16 : Peg UInt8) = seq h16 (between 0 0 (seq (lit ":") h16)) := by
    funext s
    simp only [between, times, seq, upTo, Nat.sub_zero]
    cases h16 s <;> rfl
  rw [hsame]
  exact lead_colonJoined pre 0 r

/-- `-(repeat(0, 1)[h16 >> ":"] >> h16) >> "::"` does not take a single group: its
colon is gone when the `h16` behind the repetition is tried. -/
theorem optTwo_colonJoined (pre : List HexGroup) (r : Bytes) :
    seq (opt (seq (between 0 1 (seq h16 (lit ":"))) h16)) (lit "::")
      (colonJoined pre ++ chr ':' :: chr ':' :: r) =
      if pre.length = 0 ∨ pre.length = 2 then some r else none := by
  match pre with
  | [] =>
      have hnone : seq h16 (lit ":") (chr ':' :: chr ':' :: r) = none := by
        simp only [seq, h16_of_notHex (notHex_colon _)]
      have hopt : seq (between 0 1 (seq h16 (lit ":"))) h16 (chr ':' :: chr ':' :: r) = none := by
        rw [seq, between_zero_one, hnone]
        exact h16_of_notHex (notHex_colon _)
      show seq (opt _) (lit "::") (chr ':' :: chr ':' :: r) = some r
      rw [seq, opt, hopt]
      exact lit_colons r
  | [g] =>
      have htext : colonJoined [g] ++ chr ':' :: chr ':' :: r =
          g.text ++ chr ':' :: chr ':' :: r := by
        simp only [colonJoined, colonLed, List.append_nil]
      have hopt : seq (between 0 1 (seq h16 (lit ":"))) h16 (g.text ++ chr ':' :: chr ':' :: r) =
          none := by
        rw [seq, between_zero_one, groupColon]
        exact h16_of_notHex (notHex_colon _)
      rw [htext, seq, opt, hopt, if_neg (by simp)]
      exact lit_of_head_ne rfl (group_head g _)
  | g :: g' :: gs =>
      have htext : colonJoined (g :: g' :: gs) ++ chr ':' :: chr ':' :: r =
          g.text ++ chr ':' :: (g'.text ++ (colonLed gs ++ chr ':' :: chr ':' :: r)) := by
        simp only [colonJoined, colonLed, List.append_assoc, List.cons_append]
      have hopt : seq (between 0 1 (seq h16 (lit ":"))) h16
          (g.text ++ chr ':' :: (g'.text ++ (colonLed gs ++ chr ':' :: chr ':' :: r))) =
          some (colonLed gs ++ chr ':' :: chr ':' :: r) := by
        rw [seq, between_zero_one, groupColon]
        exact h16_group g' (notHex_colonLed _ _)
      rw [htext, seq, opt, hopt]
      cases gs with
      | nil => exact lit_colons r
      | cons g'' gs =>
          rw [if_neg (by simp), colonLed, List.cons_append, List.append_assoc]
          exact lit_colons_group g'' _

/-- The first alternative does not get past the two colons. -/
theorem full_colonJoined {pre : List HexGroup} (hpre : pre.length ≤ 7) (r : Bytes) :
    seq (times 6 (seq h16 (lit ":"))) ls32 (colonJoined pre ++ chr ':' :: chr ':' :: r) = none := by
  obtain ⟨r', htext⟩ : ∃ r', colonJoined pre ++ chr ':' :: chr ':' :: r =
      colonEnded pre ++ chr ':' :: r' := by
    cases pre with
    | nil => exact ⟨chr ':' :: r, rfl⟩
    | cons g gs => exact ⟨r, colonJoined_colon g gs (chr ':' :: r)⟩
  rw [htext, seq]
  by_cases hlt : pre.length < 6
  · -- the repetition ends at the colons
    obtain ⟨k, hk⟩ : ∃ k, 6 = pre.length + (k + 1) := ⟨5 - pre.length, by omega⟩
    rw [hk, times_colonEnded]
    simp only [times, seq, h16_of_notHex (notHex_colon r')]
  · -- or `ls32` stands before them
    have hsplit : colonEnded pre ++ chr ':' :: r' =
        colonEnded (pre.take 6) ++ (colonEnded (pre.drop 6) ++ chr ':' :: r') := by
      rw [← List.append_assoc, ← colonEnded_append, List.take_append_drop]
    have htake := times_colonEnded (pre.take 6) 0 (colonEnded (pre.drop 6) ++ chr ':' :: r')
    rw [List.length_take, Nat.min_eq_left (by omega)] at htake
    rw [hsplit, htake]
    show ls32 (colonEnded (pre.drop 6) ++ chr ':' :: r') = none
    cases hdrop : pre.drop 6 with
    | nil => exact ls32_of_notHex (notHex_colon r') (by simp; decide)
    | cons g gs =>
        have hlen : (g :: gs).length ≤ 1 := by
          rw [← hdrop, List.length_drop]
          omega
        obtain rfl : gs = [] := List.length_eq_zero_iff.1 (by simpa using hlen)
        rw [colonEnded_cons, colonEnded_nil]
        exact ls32_colons g r'

/-- An alternative that is there under a condition. -/
def guarded (c : Prop) [Decidable c] (p : Peg UInt8) : Peg UInt8 := fun s => if c then p s else none

theorem guarded_pos {c : Prop} [Decidable c] (hc : c) (p : Peg UInt8) : guarded c p = p := by
  funext s
  rw [guarded, if_pos hc]

theorem guarded_neg {c : Prop} [Decidable c] (hc : ¬c) (p : Peg UInt8) (s : Bytes) :
    guarded c p s = none := by
  rw [guarded, if_neg hc]

theorem guarded_none {c : Prop} [Decidable c] {p : Peg UInt8} {s : Bytes} (h : p s = none) :
    guarded c p s = none := by
  rw [guarded, h, ite_self]

/-- The alternatives that are left behind the two colons, by the number of groups
before them. -/
def behindColons (n : Nat) : Peg UInt8 :=
  alt (guarded (n = 0) (seq (times 5 (seq h16 (lit ":"))) ls32)) <|
  alt (guarded (n ≤ 1) (seq (times 4 (seq h16 (lit ":"))) ls32)) <|
  alt (guarded (n = 0 ∨ n = 2) (seq (times 3 (seq h16 (lit ":"))) ls32)) <|
  alt (guarded (n ≤ 3) (seq ls32 (times 2 (seq (lit ":") h16)))) <|
  alt (guarded (n ≤ 4) (seq h16 (seq (lit ":") ls32))) <|
  alt (guarded (n ≤ 5) ls32) <|
  alt (guarded (n ≤ 6) h16) fun s => some s

theorem seq_guarded {p q : Peg UInt8} {c : Prop} [Decidable c] {s r : Bytes}
    (h : seq p (lit "::") s = if c then some r else none) :
    seq p (seq (lit "::") q) s = guarded c q r := by
  rw [← seq_assoc, seq, h, guarded]
  split_ifs <;> rfl

/-- What the rule does with a text that has `::` in it. -/
theorem ipV6Address_colons {pre : List HexGroup} (hpre : pre.length ≤ 7) (r : Bytes) :
    ipV6Address (colonJoined pre ++ ascii "::" ++ r) = behindColons pre.length r := by
  have htext : colonJoined pre ++ ascii "::" ++ r = colonJoined pre ++ chr ':' :: chr ':' :: r := by
    rw [List.append_assoc]
    rfl
  have h₂ : seq (lit "::") (seq (times 5 (seq h16 (lit ":"))) ls32)
      (colonJoined pre ++ chr ':' :: chr ':' :: r) =
      guarded (pre.length = 0) (seq (times 5 (seq h16 (lit ":"))) ls32) r := by
    rw [seq, colons_colonJoined, guarded]
    split_ifs <;> rfl
  have h₉ := lead_colonJoined pre 6 r
  rw [if_pos hpre] at h₉
  rw [htext]
  simp only [ipV6Address, alt_assoc]
  rw [alt_eq_right (full_colonJoined hpre r)]
  simp only [seq_assoc] at h₂ h₉ ⊢
  simp only [alt, h₂, seq_guarded (optGroup_colonJoined pre r),
    seq_guarded (optTwo_colonJoined pre r), seq_guarded (lead_colonJoined pre 2 r),
    seq_guarded (lead_colonJoined pre 3 r), seq_guarded (lead_colonJoined pre 4 r),
    seq_guarded (lead_colonJoined pre 5 r), h₉, behindColons]

/-! ### What stands behind them -/

/-- The address is over here. -/
def Over (t : Bytes) : Prop :=
  ∀ c ∈ t.head?, isXdigit c.toNat = false ∧ c ≠ chr ':' ∧ c ≠ chr '.'

section
variable {t : Bytes} {gs : List HexGroup} {n : Nat}

theorem Over.notHex (ht : Over t) : NotHex t := fun c hc => (ht c hc).1

theorem Over.colon (ht : Over t) : t.head? ≠ some (chr ':') := fun h => (ht _ h).2.1 rfl

theorem Over.group (ht : Over t) (g : HexGroup) : ls32 (g.text ++ t) = none :=
  ls32_group g ht.notHex fun c hc => (ht c hc).2

theorem Over.groupColon (ht : Over t) (g : HexGroup) : seq h16 (lit ":") (g.text ++ t) = none :=
  groupColon_none g ht.notHex ht.colon

theorem ls32_text (ht : Over t) (l : Ls32) : ls32 (l.text ++ t) = some t := by
  cases l with
  | pair g g' =>
      rw [Ls32.pair_text]
      exact ls32_pair g g' ht.notHex
  | dotted q => exact ls32_quad q ht.notHex

/-- `n( h16 ":" ) ls32` on that many groups. -/
theorem groups_exact (gs : List HexGroup) (x : Bytes) :
    seq (times gs.length (seq h16 (lit ":"))) ls32 (colonEnded gs ++ x) = ls32 x := by
  have h := times_colonEnded gs 0 x
  rw [Nat.add_zero] at h
  rw [seq, h]
  rfl

/-- On fewer, and no other group with a colon. -/
theorem groups_fewer (h : gs.length < n) {x : Bytes}
    (hx : seq h16 (lit ":") x = none) :
    seq (times n (seq h16 (lit ":"))) ls32 (colonEnded gs ++ x) = none := by
  obtain ⟨k, rfl⟩ : ∃ k, n = gs.length + (k + 1) := ⟨n - gs.length - 1, by omega⟩
  rw [seq, times_colonEnded, times]
  simp only [seq] at hx ⊢
  simp only [hx]

/-- With an `ls32` at the end, fewer groups are too few: the first group of the
`ls32` is no help, since one group stands behind it. -/
theorem groups_ls32_fewer (ht : Over t) (h : gs.length < n) (l : Ls32) :
    seq (times n (seq h16 (lit ":"))) ls32 (colonEnded gs ++ (l.text ++ t)) = none := by
  cases l with
  | dotted q => exact groups_fewer h (groupColon_quad q t)
  | pair g g' =>
      have htext : colonEnded gs ++ ((Ls32.pair g g').text ++ t) =
          colonEnded (gs ++ [g]) ++ (g'.text ++ t) := by
        simp only [colonEnded_append, List.append_assoc, colonEnded_cons, colonEnded_nil,
          Ls32.pair_text]
      rw [htext]
      by_cases hlt : gs.length + 1 < n
      · exact groups_fewer (by simpa using hlt) (ht.groupColon g')
      · obtain rfl : n = (gs ++ [g]).length := by simp; omega
        rw [groups_exact]
        exact ht.group g'

/-- Long tails: three to five groups before the `ls32`. -/
theorem behindColons_long (ht : Over t) (l : Ls32) (h : n + gs.length ≤ 5) (hlen : 3 ≤ gs.length)
    (hone : ¬(n = 1 ∧ gs.length = 3)) :
    behindColons n (colonEnded gs ++ (l.text ++ t)) = some t := by
  have hexact {k : Nat} (hk : gs.length = k) :
      seq (times k (seq h16 (lit ":"))) ls32 (colonEnded gs ++ (l.text ++ t)) = some t := by
    rw [← hk, groups_exact, ls32_text ht]
  rw [behindColons]
  by_cases h5 : gs.length = 5
  · rw [guarded_pos (show n = 0 by omega), alt_eq_left (hexact h5)]
  rw [alt_eq_right (guarded_none (groups_ls32_fewer ht (by omega) l))]
  by_cases h4 : gs.length = 4
  · rw [guarded_pos (show n ≤ 1 by omega), alt_eq_left (hexact h4)]
  rw [alt_eq_right (guarded_none (groups_ls32_fewer ht (by omega) l)),
    guarded_pos (show n = 0 ∨ n = 2 by omega), alt_eq_left (hexact (by omega))]

/-- Short tails: the alternatives that count more groups fail. -/
theorem behindColons_short (ht : Over t) (n : Nat) (l : Ls32) (h : gs.length < 3) :
    behindColons n (colonEnded gs ++ (l.text ++ t)) =
      alt (guarded (n ≤ 3) (seq ls32 (times 2 (seq (lit ":") h16))))
        (alt (guarded (n ≤ 4) (seq h16 (seq (lit ":") ls32)))
          (alt (guarded (n ≤ 5) ls32) (alt (guarded (n ≤ 6) h16) fun s => some s)))
        (colonEnded gs ++ (l.text ++ t)) := by
  rw [behindColons, alt_eq_right (guarded_none (groups_ls32_fewer ht (by omega) l)),
    alt_eq_right (guarded_none (groups_ls32_fewer ht (by omega) l)),
    alt_eq_right (guarded_none (groups_ls32_fewer ht h l))]

/-- `ls32 >> repeat(2)[":" >> h16]` wants the four groups it is written for. -/
theorem ls32Groups_zero (ht : Over t) (l : Ls32) :
    seq ls32 (times 2 (seq (lit ":") h16)) (l.text ++ t) = none := by
  rw [seq, ls32_text ht]
  simp only [times, seq, lit_colon_none ht.colon]

theorem ls32Groups_one (ht : Over t) (g : HexGroup) (l : Ls32) :
    seq ls32 (times 2 (seq (lit ":") h16)) (g.text ++ chr ':' :: (l.text ++ t)) = none := by
  cases l with
  | pair g' g'' =>
      have htake : ls32 (g.text ++ chr ':' :: ((Ls32.pair g' g'').text ++ t)) =
          some (chr ':' :: (g''.text ++ t)) := by
        rw [Ls32.pair_text]
        exact ls32_pair g g' (notHex_colon _)
      rw [seq, htake]
      simp only [times, seq, lit_colon, h16_group g'' ht.notHex, lit_colon_none ht.colon]
  | dotted q =>
      have htake : ls32 (g.text ++ chr ':' :: ((Ls32.dotted q).text ++ t)) =
          some (q.tail ++ t) := by
        rw [Ls32.text, DottedQuad.text, List.append_assoc]
        exact ls32_pair g q.a.group (notHex_dot _)
      have hcolon : lit ":" (q.tail ++ t) = none := rfl
      rw [seq, htake]
      simp only [times, seq, hcolon]

theorem ls32Groups_pair (ht : Over t) (g g' a b : HexGroup) :
    seq ls32 (times 2 (seq (lit ":") h16))
      (g.text ++ chr ':' :: (g'.text ++ chr ':' :: ((Ls32.pair a b).text ++ t))) = some t := by
  rw [seq, ls32_pair g g' (notHex_colon _), Ls32.pair_text]
  simp only [times, seq, lit_colon, h16_group a (notHex_colon _), h16_group b ht.notHex]

theorem ls32Groups_dotted (g g' : HexGroup) (q : DottedQuad) :
    seq ls32 (times 2 (seq (lit ":") h16))
      (g.text ++ chr ':' :: (g'.text ++ chr ':' :: ((Ls32.dotted q).text ++ t))) = none := by
  have hcolon : lit ":" (q.tail ++ t) = none := rfl
  rw [seq, ls32_pair g g' (notHex_colon _), Ls32.text]
  simp only [times, seq, lit_colon, h16_quad, hcolon]

/-- The rest of an address that was left in the middle. -/
def Stuck (r : Bytes) : Prop := r.head? = some (chr ':') ∨ r.head? = some (chr '.')

theorem h16_ls32 (l : Ls32) : ∃ r, h16 (l.text ++ t) = some r ∧ Stuck r := by
  cases l with
  | pair a b =>
      refine ⟨chr ':' :: (b.text ++ t), ?_, Or.inl rfl⟩
      rw [Ls32.pair_text]
      exact h16_group a (notHex_colon _)
  | dotted q => exact ⟨q.tail ++ t, h16_quad q t, Or.inr rfl⟩

/-- One more group than it is written for, and it leaves the last one. -/
theorem ls32Groups_three (g g' g'' : HexGroup) (l : Ls32) :
    ∃ r, seq ls32 (times 2 (seq (lit ":") h16)) (g.text ++ chr ':' :: (g'.text ++ chr ':' ::
      (g''.text ++ chr ':' :: (l.text ++ t)))) = some r ∧ Stuck r := by
  obtain ⟨r, hr, hstuck⟩ := h16_ls32 (t := t) l
  refine ⟨r, ?_, hstuck⟩
  rw [seq, ls32_pair g g' (notHex_colon _)]
  simp only [times, seq, lit_colon, h16_group g'' (notHex_colon _), hr]

theorem groupLs32_zero (ht : Over t) (l : Ls32) :
    seq h16 (seq (lit ":") ls32) (l.text ++ t) = none := by
  cases l with
  | pair a b =>
      rw [Ls32.pair_text, seq, h16_group a (notHex_colon _)]
      simp only [seq, lit_colon, ht.group b]
  | dotted q =>
      rw [Ls32.text, seq, h16_quad]
      rfl

theorem groupLs32_one (ht : Over t) (g : HexGroup) (l : Ls32) :
    seq h16 (seq (lit ":") ls32) (g.text ++ chr ':' :: (l.text ++ t)) = some t := by
  rw [seq, h16_group g (notHex_colon _)]
  simp only [seq, lit_colon, ls32_text ht]

/-- `ls32` takes a group and the first octet of an address for two groups. -/
theorem groupLs32_dotted (g g' : HexGroup) (q : DottedQuad) :
    seq h16 (seq (lit ":") ls32)
      (g.text ++ chr ':' :: (g'.text ++ chr ':' :: ((Ls32.dotted q).text ++ t))) =
      some (q.tail ++ t) := by
  have htake : ls32 (g'.text ++ chr ':' :: ((Ls32.dotted q).text ++ t)) = some (q.tail ++ t) := by
    rw [Ls32.text, DottedQuad.text, List.append_assoc]
    exact ls32_pair g' q.a.group (notHex_dot _)
  rw [seq, h16_group g (notHex_colon _)]
  simp only [seq, lit_colon, htake]

/-- All but the misread tails with an `ls32` are read to their end. -/
theorem behindColons_ls32 (ht : Over t) {l : Ls32} (h : n + gs.length ≤ 5)
    (hone : ¬(n = 1 ∧ gs.length = 3)) (htwo : ∀ q, l = .dotted q → gs.length ≠ 2) :
    behindColons n (colonEnded gs ++ (l.text ++ t)) = some t := by
  by_cases hlong : 3 ≤ gs.length
  · exact behindColons_long ht l h hlong hone
  rw [behindColons_short ht n l (by omega)]
  match gs with
  | [] =>
      rw [List.length_nil] at h
      show alt _ _ (l.text ++ t) = some t
      rw [alt_eq_right (guarded_none (ls32Groups_zero ht l)),
        alt_eq_right (guarded_none (groupLs32_zero ht l)),
        guarded_pos (show n ≤ 5 by omega), alt_eq_left (ls32_text ht l)]
  | [g] =>
      rw [List.length_singleton] at h
      rw [colonEnded_cons, colonEnded_nil, alt_eq_right (guarded_none (ls32Groups_one ht g l)),
        guarded_pos (show n ≤ 4 by omega), alt_eq_left (groupLs32_one ht g l)]
  | [g, g'] =>
      cases l with
      | dotted q => exact absurd rfl (htwo q rfl)
      | pair a b =>
          have hn : n ≤ 3 := Nat.le_of_add_le_add_right h
          rw [colonEnded_cons, colonEnded_cons, colonEnded_nil, guarded_pos hn,
            alt_eq_left (ls32Groups_pair ht g g' a b)]
  | _ :: _ :: _ :: _ => simp at hlong

/-- One group before the colons, three and an `ls32` behind them. -/
theorem behindColons_one (ht : Over t) (l : Ls32) (h : gs.length = 3) :
    ∃ r, behindColons 1 (colonEnded gs ++ (l.text ++ t)) = some r ∧ Stuck r := by
  match gs, h with
  | [g, g', g''], _ =>
      obtain ⟨r, hr, hstuck⟩ := ls32Groups_three (t := t) g g' g'' l
      refine ⟨r, ?_, hstuck⟩
      rw [behindColons, alt_eq_right (guarded_neg (by simp) _ _),
        alt_eq_right (guarded_none (groups_ls32_fewer ht (by simp) l)),
        alt_eq_right (guarded_neg (by simp) _ _), colonEnded_cons, colonEnded_cons, colonEnded_cons,
        colonEnded_nil, guarded_pos (by simp), alt_eq_left hr]

/-- Two groups and an IPv4 address behind the colons. -/
theorem behindColons_two (ht : Over t) (q : DottedQuad) (h : n + gs.length ≤ 5)
    (hlen : gs.length = 2) :
    ∃ r, behindColons n (colonEnded gs ++ ((Ls32.dotted q).text ++ t)) = some r ∧ Stuck r := by
  match gs, hlen with
  | [g, g'], _ =>
      refine ⟨q.tail ++ t, ?_, Or.inr rfl⟩
      rw [behindColons_short ht n _ (by simp), colonEnded_cons, colonEnded_cons, colonEnded_nil,
        alt_eq_right (guarded_none (ls32Groups_dotted g g' q)),
        guarded_pos (show n ≤ 4 by simp at h; omega), alt_eq_left (groupLs32_dotted g g' q)]

/-- One group behind the colons. -/
theorem behindColons_group (ht : Over t) (h : n ≤ 6) (g : HexGroup) :
    behindColons n (g.text ++ t) = some t := by
  have hgroups {k : Nat} (hk : 0 < k) :
      seq (times k (seq h16 (lit ":"))) ls32 (g.text ++ t) = none :=
    @groups_fewer [] k hk (g.text ++ t) (ht.groupColon g)
  have hls32 : seq ls32 (times 2 (seq (lit ":") h16)) (g.text ++ t) = none := by
    rw [seq, ht.group g]
  have hgroup : seq h16 (seq (lit ":") ls32) (g.text ++ t) = none := by
    rw [← seq_assoc, seq, ht.groupColon g]
  rw [behindColons, alt_eq_right (guarded_none (hgroups (by simp))),
    alt_eq_right (guarded_none (hgroups (by simp))),
    alt_eq_right (guarded_none (hgroups (by simp))),
    alt_eq_right (guarded_none hls32), alt_eq_right (guarded_none hgroup),
    alt_eq_right (guarded_none (ht.group g)), guarded_pos h]
  exact alt_eq_left (h16_group g ht.notHex)

/-- Nothing behind the colons. -/
theorem behindColons_nothing (ht : Over t) (n : Nat) : behindColons n t = some t := by
  have hgroup : h16 t = none := h16_of_notHex ht.notHex
  have hls32 : ls32 t = none := ls32_of_notHex ht.notHex fun h => (ht _ h).2.2 rfl
  have hcolon : seq h16 (lit ":") t = none := by rw [seq, hgroup]
  have hgroups {k : Nat} (hk : 0 < k) : seq (times k (seq h16 (lit ":"))) ls32 t = none :=
    @groups_fewer [] k hk t hcolon
  have hfour : seq ls32 (times 2 (seq (lit ":") h16)) t = none := by rw [seq, hls32]
  have hthree : seq h16 (seq (lit ":") ls32) t = none := by rw [seq, hgroup]
  rw [behindColons, alt_eq_right (guarded_none (hgroups (by simp))),
    alt_eq_right (guarded_none (hgroups (by simp))),
    alt_eq_right (guarded_none (hgroups (by simp))),
    alt_eq_right (guarded_none hfour), alt_eq_right (guarded_none hthree),
    alt_eq_right (guarded_none hls32)]
  exact alt_eq_right (guarded_none hgroup)

/-! ### The rule on the words of the grammar -/

theorem ipV6Address_full (ht : Over t) (l : Ls32) (h : gs.length = 6) :
    ipV6Address (colonEnded gs ++ (l.text ++ t)) = some t := by
  have hgroups : seq (times 6 (seq h16 (lit ":"))) ls32 (colonEnded gs ++ (l.text ++ t)) =
      some t := by
    rw [← h, groups_exact, ls32_text ht]
  simp only [ipV6Address, alt_assoc]
  exact alt_eq_left hgroups

/-- A word that is not misread is read to its end. -/
theorem ipV6Address_text (ht : Over t) {a : IpV6} (ha : ¬a.Misread) :
    ipV6Address (a.text ++ t) = some t := by
  cases a with
  | full gs l h =>
      rw [IpV6.text, List.append_assoc]
      exact ipV6Address_full ht l h
  | elided pre gs l h =>
      rw [IpV6.text, List.append_assoc, ipV6Address_colons (by omega), List.append_assoc]
      cases l with
      | pair g g' => exact behindColons_ls32 ht h ha (by simp)
      | dotted q =>
          obtain ⟨hone, htwo⟩ := not_or.1 ha
          exact behindColons_ls32 ht h hone fun _ _ => htwo
  | elidedOne pre g h =>
      rw [IpV6.text, List.append_assoc, ipV6Address_colons (by omega)]
      exact behindColons_group ht h g
  | elidedAll pre h =>
      rw [IpV6.text, ipV6Address_colons h]
      exact behindColons_nothing ht pre.length

theorem ipV6Address_misread (ht : Over t) {a : IpV6} (ha : a.Misread) :
    ∃ r, ipV6Address (a.text ++ t) = some r ∧ Stuck r := by
  cases a with
  | full gs l h => exact absurd ha id
  | elided pre gs l h =>
      rw [IpV6.text, List.append_assoc, ipV6Address_colons (by omega), List.append_assoc]
      cases l with
      | pair g g' =>
          obtain ⟨hone, hthree⟩ := ha
          rw [hone]
          exact behindColons_one ht _ hthree
      | dotted q =>
          rcases ha with ⟨hone, hthree⟩ | htwo
          · rw [hone]
            exact behindColons_one ht _ hthree
          · exact behindColons_two ht q h htwo
  | elidedOne pre g h => exact absurd ha id
  | elidedAll pre h => exact absurd ha id

end

/-- A literal is what the address leaves before the bracket. -/
theorem ipLiteral_of_ipV6Address {x r : Bytes} (h : ipV6Address (x ++ ascii "]") = some r) :
    ipLiteral (ascii "[" ++ x ++ ascii "]") = lit "]" r := by
  have hopen : lit "[" (ascii "[" ++ (x ++ ascii "]")) = some (x ++ ascii "]") :=
    lit_append (by decide) _
  have hinner : alt ipV6Address ipVfuture (x ++ ascii "]") = some r := alt_eq_left h
  rw [List.append_assoc, ipLiteral, seq_assoc, seq, hopen]
  simp only [seq, hinner]

/-- `ip_literal` matches every IPv6 literal of the RFC completely but two kinds: one
group before `::` with three groups and an `ls32` behind it, and two groups and an
IPv4 address behind it. -/
theorem ipLiteral_iff (a : IpV6) :
    ipLiteral (ascii "[" ++ a.text ++ ascii "]") = some [] ↔ ¬a.Misread := by
  have ht : Over (ascii "]") := by
    intro c hc
    cases hc
    decide
  constructor
  · intro h ha
    obtain ⟨r, hr, hstuck⟩ := ipV6Address_misread ht ha
    have hclose : lit "]" r = none := by
      refine lit_of_head_ne rfl ?_
      rcases hstuck with hr | hr <;> rw [hr] <;> decide
    rw [ipLiteral_of_ipV6Address hr, hclose] at h
    cases h
  · intro ha
    rw [ipLiteral_of_ipV6Address (ipV6Address_text ht ha)]
    rfl

/-- A group of one digit. -/
def HexGroup.single (c : UInt8) (hc : isXdigit c.toNat = true) : HexGroup where
  text := [c]
  digits := by simpa using hc
  length_pos := by simp
  length_le := by simp

/-- Eight pieces written with `::` for the second, and an IPv4 address behind two
groups. -/
theorem ipLiteral_stuck :
    ((∃ a : IpV6, a.text = ascii "1::2:3:4:5:6") ∧ ipLiteral (ascii "[1::2:3:4:5:6]") ≠ some []) ∧
      (∃ a : IpV6, a.text = ascii "::1:2:1.2.3.4") ∧
        ipLiteral (ascii "[::1:2:1.2.3.4]") ≠ some [] := by
  let group (c : Char) (hc : isXdigit (chr c).toNat = true) : HexGroup := .single (chr c) hc
  refine ⟨⟨⟨.elided [group '1' rfl] [group '2' rfl, group '3' rfl, group '4' rfl]
      (.pair (group '5' rfl) (group '6' rfl)) (by simp), rfl⟩, ?_⟩,
    ⟨.elided [] [group '1' rfl, group '2' rfl]
      (.dotted ⟨.digit 1, .digit 2, .digit 3, .digit 4⟩) (by simp), rfl⟩, ?_⟩
  · decide +kernel
  · decide +kernel

end Foxy.Uri
