import Foxy.Detail.ViaLoops

/-!
# Foxy.Detail.HopByHop

Which fields of a header end at the proxy, where `export_connect_fields` puts
them, and what the relay forwards of the others.

A Connection option is compared with a field's name byte by byte, so a field
that the option spells in another case stays (`Honoured`). Apart from that the
export is exact (`Exports`), and so is the list of fields that goes out again
(`Forwards`).
-/

namespace Foxy.Detail

open Http Lib

/-! ### Connection options -/

theorem ne_nil_of_mem_scanTokens {needComma : Bool} {token s t : Bytes}
    (h : t ∈ scanTokens needComma token s) : t ≠ [] := by
  induction s generalizing needComma token with
  | nil =>
      rw [scanTokens] at h
      split at h
      · cases h
      · next hne =>
          obtain rfl : t = token := by simpa using h
          simpa using hne
  | cons c s ih =>
      have hrest : ∀ {rest : List Bytes}, t ∈ rest →
          rest = (if isOws c then scanTokens (needComma || !token.isEmpty) [] s
            else if c == chr ',' then scanTokens false [] s else []) → t ≠ [] := by
        intro rest ht hr
        subst hr
        split at ht
        · exact ih ht
        · split at ht
          · exact ih ht
          · cases ht
      rw [scanTokens] at h
      split at h
      · split at h
        · cases h
        · exact ih h
      · dsimp only at h
        split at h
        · exact hrest h rfl
        · next hne =>
            rcases List.mem_cons.1 h with rfl | ht
            · simpa using hne
            · exact hrest ht rfl

theorem ne_nil_of_mem_connectionTokens {src : Fields} {t : Bytes} (h : t ∈ connectionTokens src) :
    t ≠ [] := by
  obtain ⟨f, -, ht⟩ := List.mem_flatMap.1 h
  exact ne_nil_of_mem_scanTokens ht

/-- A name that an option has in some case is not empty. -/
theorem ne_nil_of_iequals {a b : Bytes} (h : iequals a b = true) (hb : b ≠ []) : a ≠ [] := by
  rintro rfl
  cases b with
  | nil => exact hb rfl
  | cons c b => simp [iequals] at h

/-- The fields that end at the proxy: one of the eleven, or one that a
Connection field names byte for byte. -/
def HopByHop (src : Fields) (f : Field) : Prop :=
  (∃ n ∈ hopByHops, f.is n = true) ∨ f.name ∈ connectionTokens src

instance (src : Fields) (f : Field) : Decidable (HopByHop src f) :=
  inferInstanceAs (Decidable ((∃ n ∈ hopByHops, f.is n = true) ∨ f.name ∈ connectionTokens src))

/-- The vector of options may hold empty strings besides the tokens, so for a
field that has a name the predicate of the move is the definition. -/
theorem isConnectOpt_iff {src : Fields} {f : Field} (hname : f.name ≠ []) :
    isConnectOpt (connectOpts src) f = true ↔ HopByHop src f := by
  rw [isConnectOpt, Bool.or_eq_true, List.any_eq_true, List.contains_iff_mem,
    mem_connectOpts hname, HopByHop]

/-- A hop-by-hop field has a name. -/
theorem HopByHop.name_ne_nil {src : Fields} {f : Field} (h : HopByHop src f) : f.name ≠ [] := by
  rcases h with ⟨n, -, hn⟩ | hmem
  · exact ne_nil_of_iequals hn (by cases n <;> decide)
  · exact ne_nil_of_mem_connectionTokens hmem

/-- No field is left that a Connection option of `src` names in whatever case,
and none of the eleven. -/
def Honoured (src left : Fields) : Prop :=
  ∀ f ∈ left, (∀ t ∈ connectionTokens src, iequals f.name t = false) ∧
    ∀ n ∈ hopByHops, f.is n = false

instance (src left : Fields) : Decidable (Honoured src left) :=
  inferInstanceAs (Decidable (∀ f ∈ left, (∀ t ∈ connectionTokens src, iequals f.name t = false) ∧
    ∀ n ∈ hopByHops, f.is n = false))

/-- Every field beyond the eleven that an option names in some case has the
spelling of an option. -/
def SpelledAlike (src : Fields) : Prop :=
  ∀ f ∈ src, (∀ n ∈ hopByHops, f.is n = false) →
    (∃ t ∈ connectionTokens src, iequals f.name t = true) → f.name ∈ connectionTokens src

/-- The export honours the Connection options whatever their case exactly when
no field depends on that. -/
theorem exportConnectFields_honoured_iff (src dst : Fields) :
    Honoured src (exportConnectFields src dst).1 ↔ SpelledAlike src := by
  rw [exportConnectFields_fst]
  constructor
  · intro h f hf hhop hopt
    obtain ⟨t, ht, heq⟩ := hopt
    have hname : f.name ≠ [] := ne_nil_of_iequals heq (ne_nil_of_mem_connectionTokens ht)
    by_contra hmem
    have hstays : isConnectOpt (connectOpts src) f = false := by
      rw [← Bool.not_eq_true, isConnectOpt_iff hname]
      rintro (⟨n, hn, his⟩ | hmem')
      · simp [hhop n hn] at his
      · exact hmem hmem'
    have hleft := (h f (List.mem_filter.2 ⟨hf, by simp [hstays]⟩)).1 t ht
    simp [heq] at hleft
  · intro h f hf
    obtain ⟨hmem, hstays⟩ := List.mem_filter.1 hf
    rw [Bool.not_eq_true', isConnectOpt, Bool.or_eq_false_iff, List.any_eq_false] at hstays
    have hhop : ∀ n ∈ hopByHops, f.is n = false := fun n hn => by simpa using hstays.1 n hn
    refine ⟨fun t ht => ?_, hhop⟩
    rw [← Bool.not_eq_true]
    intro heq
    have hname : f.name ≠ [] := ne_nil_of_iequals heq (ne_nil_of_mem_connectionTokens ht)
    have hopt := (mem_connectOpts hname src).2 (h f hmem hhop ⟨t, ht, heq⟩)
    simp [hopt] at hstays

/-- `Connection: foo` leaves a field `Foo` where it is. -/
theorem exportConnectFields_honoured_recased :
    ¬Honoured [⟨ascii "Connection", ascii "foo"⟩, ⟨ascii "Foo", ascii "1"⟩]
      (exportConnectFields [⟨ascii "Connection", ascii "foo"⟩, ⟨ascii "Foo", ascii "1"⟩] []).1 := by
  decide +kernel

/-! ### The move -/

/-- What the export of `src` to `dst` leaves, `p` picking the fields that move. -/
structure Exports (src dst : Fields) (p : Field → Bool) (r : Fields × Fields) : Prop where
  hop : ∀ f, HopByHop src f → p f = true
  /-- Beyond the hop-by-hop fields only one without a name could move. -/
  only : ∀ f, p f = true → HopByHop src f ∨ f.name = []
  left_eq : r.1 = src.filter (!p ·)
  perm : r.2.Perm (dst ++ src.filter p)
  /-- Fields of one name keep their order, behind those that were there before. -/
  order : ∀ x, r.2.filter (iequals ·.name x) =
    dst.filter (iequals ·.name x) ++ (src.filter p).filter (iequals ·.name x)
  again : exportConnectFields r.1 r.2 = r

theorem perm_insert (fs : Fields) (name value : Bytes) :
    (fs.insert name value).Perm (fs ++ [⟨name, value⟩]) := by
  obtain ⟨before, after, hfs, hinsert, -⟩ := fs.insert_eq name value
  rw [hinsert, hfs, List.append_assoc]
  exact List.Perm.append_left before (List.perm_append_singleton _ _).symm

theorem moveFields_snd_perm (opts : List Bytes) (src dst : Fields) :
    (moveFields opts src dst).2.Perm (dst ++ src.filter (isConnectOpt opts)) := by
  induction src generalizing dst with
  | nil => simp [moveFields]
  | cons f src ih =>
      by_cases hf : isConnectOpt opts f = true
      · rw [moveFields, if_pos hf, List.filter_cons_of_pos hf, List.append_cons]
        exact (ih _).trans ((perm_insert dst f.name f.value).append_right _)
      · rw [moveFields, if_neg hf, List.filter_cons_of_neg hf]
        exact ih dst

theorem moveFields_snd_order (opts : List Bytes) (src dst : Fields) (x : Bytes) :
    (moveFields opts src dst).2.filter (iequals ·.name x) =
      dst.filter (iequals ·.name x) ++
        (src.filter (isConnectOpt opts)).filter (iequals ·.name x) := by
  induction src generalizing dst with
  | nil => simp [moveFields]
  | cons f src ih =>
      by_cases hf : isConnectOpt opts f = true
      · rw [moveFields, if_pos hf, List.filter_cons_of_pos hf, ih, Fields.filter_insert,
          List.append_assoc, List.filter_cons]
        split <;> rfl
      · rw [moveFields, if_neg hf, List.filter_cons_of_neg hf]
        exact ih dst

/-- Fields none of which is an option stay as they are. -/
theorem moveFields_eq_self {opts : List Bytes} {src : Fields} (dst : Fields)
    (h : ∀ f ∈ src, isConnectOpt opts f = false) : moveFields opts src dst = (src, dst) := by
  induction src with
  | nil => rfl
  | cons f src ih =>
      rw [moveFields, if_neg (by simp [h f]), ih fun g hg => h g (List.mem_cons_of_mem _ hg)]

/-- Without a Connection field there is no option, and after an export there is
none. -/
theorem connectOpts_exported (src dst : Fields) :
    connectOpts (exportConnectFields src dst).1 = [] := by
  rw [connectOpts, connectionTokens, equalRange_export_hop _ _ (by decide), List.flatMap_nil,
    List.mergeSort_nil]
  rfl

theorem exportConnectFields_again (src dst dst' : Fields) :
    exportConnectFields (exportConnectFields src dst).1 dst' =
      ((exportConnectFields src dst).1, dst') := by
  refine (congrArg (moveFields · _ _) (connectOpts_exported src dst)).trans
    (moveFields_eq_self dst' fun f hf => ?_)
  rw [exportConnectFields_fst, List.mem_filter, Bool.not_eq_true', isConnectOpt,
    Bool.or_eq_false_iff] at hf
  rw [isConnectOpt, hf.2.1]
  rfl

theorem exportConnectFields_exports (src dst : Fields) :
    Exports src dst (isConnectOpt (connectOpts src)) (exportConnectFields src dst) where
  hop := fun _ h => (isConnectOpt_iff h.name_ne_nil).2 h
  only := by
    intro f hf
    by_cases hname : f.name = []
    · exact Or.inr hname
    · exact Or.inl ((isConnectOpt_iff hname).1 hf)
  left_eq := exportConnectFields_fst src dst
  perm := moveFields_snd_perm _ _ _
  order := moveFields_snd_order _ _ _
  again := exportConnectFields_again src dst _

/-! ### What is forwarded -/

/-- The fields of a header as the parser lets them through: it also refuses a
field without a name. -/
structure Parsed (fs : Fields) : Prop extends Accepted fs where
  named : ∀ f ∈ fs, f.name ≠ []

def closeField : Field := ⟨FieldName.connection.text, ascii "close"⟩

def chunkedField : Field := ⟨FieldName.transferEncoding.text, ascii "chunked"⟩

/-- The fields of a header that are to go on: those that are not hop-by-hop, the
close of the connection and the chunked coding as this hop has them. -/
def endToEnd {S : Type} (closeTunnel : Bool) (h : Header S) : Fields :=
  h.fields.filter (¬HopByHop h.fields ·) ++ (if closeTunnel then [closeField] else []) ++
    if h.chunked then [chunkedField] else []

/-- `fs` are these fields and one Via field, behind all others of that name. -/
def Forwards {S : Type} (closeTunnel : Bool) (h : Header S) (fs : Fields) : Prop :=
  ∃ before after, fs = before ++ viaField :: after ∧ before ++ after = endToEnd closeTunnel h ∧
    Fields.equalRange after .via = []

variable {S : Type} {h : Header S} {r : Rewritten S} {closeTunnel : Bool} {exported : Fields}

theorem erase_of_absent {fs : Fields} {n : FieldName} (h : fs.equalRange n = []) :
    fs.erase n = fs := by
  rw [Fields.equalRange, List.filter_eq_nil_iff] at h
  rw [Fields.erase, List.filter_eq_self]
  intro f hf
  simpa using h f hf

theorem set_of_absent {fs : Fields} {n : FieldName} (h : fs.equalRange n = []) (value : Bytes) :
    fs.set n value = fs ++ [⟨n.text, value⟩] := by
  rw [Fields.set, erase_of_absent h]

/-- Where a header of HTTP/1.1 has no Connection field, `keep_alive(false)` adds
one. -/
theorem fields_keepAliveFalse (hv : h.version = 11) (hc : h.fields.equalRange .connection = []) :
    h.keepAliveFalse.fields = h.fields ++ [closeField] := by
  have hget : h.fields.get .connection = [] := by
    simp [Fields.get, Fields.find_eq_head?, hc]
  have hvalue : keepAliveFalseValue h.version (h.fields.get .connection) = ascii "close" := by
    rw [hv, hget]
    decide
  rw [Header.keepAliveFalse, hvalue]
  exact set_of_absent hc _

/-- Where it has neither a Transfer-Encoding nor a Content-Length, `chunked(true)`
adds the former. -/
theorem fields_chunkedTrue (ht : h.fields.equalRange .transferEncoding = [])
    (hl : h.fields.equalRange .contentLength = []) :
    h.chunkedTrue.fields = h.fields ++ [chunkedField] := by
  have hfind : h.fields.find .transferEncoding = none := by simp [Fields.find_eq_head?, ht]
  simp only [Header.chunkedTrue, hfind]
  rw [erase_of_absent, set_of_absent ht]
  · rfl
  · rw [Fields.equalRange_set, if_neg (by decide), hl]

/-- The fields that stay of a header as the parser lets it through. -/
theorem exportConnectFields_left (hp : Parsed h.fields) :
    (exportConnectFields h.fields exported).1 = h.fields.filter (¬HopByHop h.fields ·) := by
  rw [exportConnectFields_fst]
  refine List.filter_congr fun f hf => ?_
  rw [Bool.eq_iff_iff, Bool.not_eq_true', ← Bool.not_eq_true, isConnectOpt_iff (hp.named f hf)]
  simp

/-- A chunked header has no Content-Length to lose. -/
theorem contentLength_absent (hp : Parsed h.fields) (hc : h.chunked = true) :
    (exportConnectFields h.fields exported).1.equalRange .contentLength = [] := by
  rw [equalRange_export _ _ (by decide), hp.exclusive (parsedChunked_of_chunked hc)]
  rfl

/-- A rewritten header of HTTP/1.1 is the end-to-end fields with the proxy's Via
inserted. -/
theorem fields_rewrite (hv : h.version = 11) (hp : Parsed h.fields)
    (hr : rewriteHeader closeTunnel exported h = some r) :
    r.header.fields = (endToEnd r.closeTunnel h).insert FieldName.via.text (ascii "1.1 foxy") := by
  simp only [rewriteHeader] at hr
  cases hvia : hasFoxyVia h.fields with
  | true => simp [hvia] at hr
  | false =>
      simp only [hvia, Bool.false_eq_true, if_false, Option.some.injEq] at hr
      subst hr
      dsimp only
      generalize (closeTunnel || !h.keepAlive) = close
      have hconn : (exportConnectFields h.fields exported).1.equalRange .connection = [] :=
        equalRange_export_hop _ _ (by decide)
      have hte : (exportConnectFields h.fields exported).1.equalRange .transferEncoding = [] :=
        equalRange_export_hop _ _ (by decide)
      generalize hleft : (exportConnectFields h.fields exported).1 = left at hconn hte
      have hends : endToEnd close h =
          left ++ (if close then [closeField] else []) ++ if h.chunked then [chunkedField] else [] := by
        rw [endToEnd, ← exportConnectFields_left hp, hleft]
      have hclosed : (if close then Header.keepAliveFalse { h with fields := left }
          else { h with fields := left }).fields = left ++ if close then [closeField] else [] := by
        cases close with
        | false => exact (List.append_nil _).symm
        | true => exact fields_keepAliveFalse hv hconn
      -- the added Connection field is in the way of neither lookup
      have habsent : ∀ n, n ≠ .connection → left.equalRange n = [] →
          Fields.equalRange (left ++ if close then [closeField] else []) n = [] := by
        intro n hn hnone
        rw [Fields.equalRange, List.filter_append, ← Fields.equalRange, hnone, List.nil_append]
        cases close with
        | false => rfl
        | true => simp [Field.is, closeField, FieldName.iequals_text, Ne.symm hn]
      rw [hends]
      congr 1
      rw [← hclosed] at habsent ⊢
      cases hchunked : h.chunked with
      | false => exact (List.append_nil _).symm
      | true =>
          refine fields_chunkedTrue (habsent _ (by decide) hte) (habsent _ (by decide) ?_)
          rw [← hleft]
          exact contentLength_absent hp hchunked

theorem forwards_rewrite (hv : h.version = 11) (hp : Parsed h.fields)
    (hr : rewriteHeader closeTunnel exported h = some r) :
    Forwards r.closeTunnel h r.header.fields := by
  obtain ⟨before, after, hends, hinsert, hafter⟩ :=
    Fields.insert_eq (endToEnd r.closeTunnel h) FieldName.via.text (ascii "1.1 foxy")
  refine ⟨before, after, (fields_rewrite hv hp hr).trans hinsert, hends.symm, ?_⟩
  rw [Fields.equalRange, List.filter_eq_nil_iff]
  intro f hf
  rw [Field.is, hafter f hf]
  exact Bool.false_ne_true

namespace Relay

variable {given : Option (Incoming RequestLine)} {tr : List (Relay × RelayEvent)} {s s' s₀ : Relay}
  {buffer : Buffer}

theorem onRequest_forwards {m : Incoming RequestLine} {header : Request} {source : Source}
    (h : s.onRequest m = some s') (hp : s'.point = .writeRequest header source)
    (hv : m.header.version = 11) (hparsed : Parsed m.header.fields) :
    Forwards s'.closeTunnel m.header header.fields := by
  obtain ⟨hclose, -, ⟨-, hdone⟩ | ⟨r, source', -, hr, -, hwrite⟩⟩ := onRequest_eq_some h
  · rw [hdone] at hp
    cases hp
  · rw [hwrite] at hp
    cases hp
    rw [hclose, ← (rewriteHeader_eq_some hr).2.1]
    exact forwards_rewrite hv hparsed hr

theorem onResponse_forwards {m : Incoming StatusLine} {header : Response} {source : Source}
    (h : s.onResponse m = some s') (hp : s'.point = .writeResponse header source)
    (hv : m.header.version = 11) (hparsed : Parsed m.header.fields) :
    Forwards s'.closeTunnel m.header header.fields := by
  obtain ⟨hclose, -, ⟨-, hdone⟩ | ⟨r, source', -, hr, -, hwrite⟩⟩ := onResponse_eq_some h
  · rw [hdone] at hp
    cases hp
  · rw [hwrite] at hp
    cases hp
    rw [hclose, ← (rewriteHeader_eq_some hr).2.1]
    exact forwards_rewrite hv hparsed hr

/-- Only a request that was read or given is written to the remote. -/
theorem run_writeRequest {header : Request} {source : Source}
    (hstart : start buffer given = some s₀) (h : Run step s₀ tr s)
    (hp : s.point = .writeRequest header source) :
    ∃ (m : Incoming RequestLine) (s' : Relay), requests given tr = [m] ∧ s'.onRequest m = some s := by
  have hf : s.forwarding = some header.fields := by rw [forwarding, hp]
  cases h with
  | nil =>
      cases given with
      | none =>
          simp only [start, Option.some.injEq] at hstart
          subst hstart
          cases hf
      | some m => exact ⟨m, _, rfl, hstart⟩
  | snoc hrun hs =>
      cases step_inv hs with
      | requestFailed _ => cases hf
      | request hpoint hreq =>
          have hhist := run_history hstart hrun
          simp only [History, hpoint] at hhist
          obtain ⟨rfl, rfl, -⟩ := hhist
          exact ⟨_, _, rfl, hreq⟩
      | requestUnwritten _ => cases hf
      | requestWritten _ => cases hf
      | requestBody _ _ => simp [forwarding_afterRequestBody] at hf
      | responseFailed _ => cases hf
      | response _ hres =>
          obtain ⟨-, -, ⟨-, hdone⟩ | ⟨r, source', -, -, -, hwrite⟩⟩ := onResponse_eq_some hres
          · rw [hdone] at hp
            cases hp
          · rw [hwrite] at hp
            cases hp
      | responseUnwritten _ => cases hf
      | responseWritten _ => cases hf
      | responseBody _ _ => simp [forwarding_afterResponseBody] at hf

/-- Only a response that was read is written to the client. -/
theorem run_writeResponse {header : Response} {source : Source}
    (hstart : start buffer given = some s₀) (h : Run step s₀ tr s)
    (hp : s.point = .writeResponse header source) :
    ∃ (m : Incoming StatusLine) (s' : Relay), responses tr = [m] ∧ s'.onResponse m = some s := by
  have hf : s.forwarding = some header.fields := by rw [forwarding, hp]
  have hrequest : ∀ {s' : Relay} {m : Incoming RequestLine}, s'.onRequest m ≠ some s := by
    intro s' m hreq
    obtain ⟨-, -, ⟨-, hdone⟩ | ⟨r, source', -, -, -, hwrite⟩⟩ := onRequest_eq_some hreq
    · rw [hdone] at hp
      cases hp
    · rw [hwrite] at hp
      cases hp
  cases h with
  | nil =>
      cases given with
      | none =>
          simp only [start, Option.some.injEq] at hstart
          subst hstart
          cases hf
      | some m => exact absurd hstart hrequest
  | snoc hrun hs =>
      cases step_inv hs with
      | requestFailed _ => cases hf
      | request _ hreq => exact absurd hreq hrequest
      | requestUnwritten _ => cases hf
      | requestWritten _ => cases hf
      | requestBody _ _ => simp [forwarding_afterRequestBody] at hf
      | responseFailed _ => cases hf
      | response hpoint hres =>
          have hhist := run_history hstart hrun
          simp only [History, hpoint] at hhist
          obtain ⟨rq, hrequested, -⟩ := hhist
          refine ⟨_, _, ?_, hres⟩
          rw [responses_snoc, hrequested.responses_eq]
          rfl
      | responseUnwritten _ => cases hf
      | responseWritten _ => cases hf
      | responseBody _ _ => simp [forwarding_afterResponseBody] at hf

/-- In every run a header of HTTP/1.1 goes on as its end-to-end fields and the
proxy's Via, and every export takes the hop-by-hop fields and no others. -/
theorem run_forwards (hstart : start buffer given = some s₀) (h : Run step s₀ tr s)
    (hreq : ∀ m ∈ requests given tr, Parsed m.header.fields)
    (hres : ∀ m ∈ responses tr, Parsed m.header.fields) :
    (∀ header source, s.point = .writeRequest header source → ∃ m, requests given tr = [m] ∧
      (m.header.version = 11 → Forwards s.closeTunnel m.header header.fields)) ∧
    (∀ header source, s.point = .writeResponse header source → ∃ m, responses tr = [m] ∧
      (m.header.version = 11 → Forwards s.closeTunnel m.header header.fields)) ∧
    ∀ src dst, ∃ p, Exports src dst p (exportConnectFields src dst) := by
  refine ⟨fun header source hp => ?_, fun header source hp => ?_,
    fun src dst => ⟨_, exportConnectFields_exports src dst⟩⟩
  · obtain ⟨m, s', hm, hon⟩ := run_writeRequest hstart h hp
    exact ⟨m, hm, fun hv => onRequest_forwards hon hp hv (hreq m (by simp [hm]))⟩
  · obtain ⟨m, s', hm, hon⟩ := run_writeResponse hstart h hp
    exact ⟨m, hm, fun hv => onResponse_forwards hon hp hv (hres m (by simp [hm]))⟩

/-- Fields of each kind: end-to-end ones, one that Connection names, a Via of
another hop and a transfer coding. -/
def listed : Fields :=
  [⟨ascii "Host", ascii "a"⟩, ⟨ascii "Connection", ascii "X"⟩, ⟨ascii "X", ascii "1"⟩,
    ⟨ascii "x", ascii "2"⟩, ⟨ascii "Via", ascii "1.0 b"⟩, ⟨ascii "Accept", ascii "*"⟩,
    ⟨ascii "Transfer-Encoding", ascii "chunked"⟩]

theorem parsed_listed : Parsed listed := ⟨by decide +kernel, by decide⟩

example : (rewriteHeader true [] (post listed)).map (fun r => r.header.fields) =
    some [⟨ascii "Host", ascii "a"⟩, ⟨ascii "x", ascii "2"⟩, ⟨ascii "Via", ascii "1.0 b"⟩, viaField,
      ⟨ascii "Accept", ascii "*"⟩, closeField, chunkedField] := by decide +kernel

theorem run_forwards_listed :
    ∃ s₀ header source, start BodyLoop.zeros (some ⟨post listed, []⟩) = some s₀ ∧
      s₀.point = .writeRequest header source ∧
      Forwards s₀.closeTunnel (post listed) header.fields := by
  obtain ⟨s₀, header, source, hstart, hp⟩ : ∃ s₀ header source,
      start BodyLoop.zeros (some ⟨post listed, []⟩) = some s₀ ∧ s₀.point = .writeRequest header source :=
    ⟨_, _, _, rfl, rfl⟩
  have hparsed : ∀ m ∈ requests (some ⟨post listed, []⟩) [], Parsed m.header.fields := by
    intro m hm
    obtain rfl : m = ⟨post listed, []⟩ := by simpa [requests] using hm
    exact parsed_listed
  obtain ⟨m, hm, hforwards⟩ :=
    (run_forwards hstart .nil hparsed (by simp [responses])).1 header source hp
  obtain rfl : ⟨post listed, []⟩ = m := by simpa [requests] using hm
  exact ⟨s₀, header, source, hstart, hp, hforwards rfl⟩

end Relay

end Foxy.Detail
