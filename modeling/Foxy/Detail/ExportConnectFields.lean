import Foxy.Http.Message

/-!
# Foxy.Detail.ExportConnectFields

The header rewrite of the relay: `has_foxy_via` (`foxy/detail/has_token.hpp`),
`export_connect_fields` (`foxy/detail/export_connect_fields.hpp`) and the two
places of `foxy/detail/relay.hpp` that put them together, one for the request
and one for the response.

The main result says for which headers the rewrite keeps the declared framing
and the transfer codings.
-/

namespace Foxy.Detail

open Http

/-! ### `has_foxy_via` -/

/-- `no_case[*(char_ - "1.1 foxy") >> lit("1.1 foxy") >> *char_]`. -/
def foxyVia : Peg UInt8 :=
  Peg.seq (Peg.seq (Peg.star (Peg.diff X3.anyChar (X3.litNoCase "1.1 foxy")))
    (X3.litNoCase "1.1 foxy")) (Peg.star X3.anyChar)

/-- `has_foxy_via`. -/
def hasFoxyVia (fields : Fields) : Bool :=
  (fields.equalRange .via).any fun f => (foxyVia f.value).isSome

/-! ### `export_connect_fields` -/

/-- All tokens of all Connection fields, in order. -/
def connectionTokens (src : Fields) : List Bytes :=
  (src.equalRange .connection).flatMap fun f => tokenList f.value

/-- `std::string` order. -/
def lexLe (a b : Bytes) : Bool := !List.lex b a

/-- The elements `std::unique` keeps: those that differ from the one before. -/
def uniqueFrom (prev : Bytes) : List Bytes → List Bytes
  | [] => []
  | x :: xs => if x = prev then uniqueFrom prev xs else x :: uniqueFrom x xs

/-- What the elements behind them hold afterwards: a duplicate was never
touched, the others were moved from and are empty. -/
def leftFrom (prev : Bytes) : List Bytes → List Bytes
  | [] => []
  | x :: xs => (if x = prev then x else []) :: leftFrom x xs

/-- The vector after `range::unique`, whose result the caller discards: it keeps
its length, the unique elements come first. -/
def unique : List Bytes → List Bytes
  | [] => []
  | x :: xs =>
    let kept := x :: uniqueFrom x xs
    kept ++ (x :: leftFrom x xs).drop kept.length

/-- `connect_opts` once sorted and made unique. -/
def connectOpts (src : Fields) : List Bytes := unique ((connectionTokens src).mergeSort lexLe)

/-- `hop_by_hops`. -/
def hopByHops : List FieldName :=
  [.connection, .keepAlive, .proxyAuthenticate, .proxyAuthenticationInfo, .proxyAuthorization,
    .proxyConnection, .proxyFeatures, .proxyInstruction, .te, .trailer, .transferEncoding]

/-- `is_connect_opt`. -/
def isConnectOpt (opts : List Bytes) (field : Field) : Bool :=
  hopByHops.any (field.is ·) || opts.contains field.name

/-- The loop over the fields: `(src, dst)` afterwards. -/
def moveFields (opts : List Bytes) : Fields → Fields → Fields × Fields
  | [], dst => ([], dst)
  | field :: src, dst =>
    if isConnectOpt opts field then moveFields opts src (dst.insert field.name field.value)
    else
      let (src', dst') := moveFields opts src dst
      (field :: src', dst')

/-- `export_connect_fields(src, dst)`. -/
def exportConnectFields (src dst : Fields) : Fields × Fields := moveFields (connectOpts src) src dst

/-! ### The rewrite -/

/-- What a rewrite leaves: the header to forward, the fields taken out of it and
the updated `close_tunnel`. -/
structure Rewritten (S : Type) where
  header : Header S
  exported : Fields
  closeTunnel : Bool
  deriving DecidableEq

variable {S : Type}

/-- The rewrite of a received header, `none` where the header has been here
before. `exported` are the fields container's contents so far. -/
def rewriteHeader (closeTunnel : Bool) (exported : Fields) (h : Header S) : Option (Rewritten S) :=
  let closeTunnel := closeTunnel || !h.keepAlive
  let isChunked := h.chunked
  if hasFoxyVia h.fields then none
  else
    let (src, dst) := exportConnectFields h.fields exported
    let h := { h with fields := src }
    let h := if closeTunnel then h.keepAliveFalse else h
    let h := if isChunked then h.chunkedTrue else h
    some ⟨{ h with fields := h.fields.insert FieldName.via.text (ascii "1.1 foxy") }, dst, closeTunnel⟩

/-! ### What is exported -/

theorem mem_uniqueFrom {x prev : Bytes} {xs : List Bytes} (h : x ∈ xs) :
    x = prev ∨ x ∈ uniqueFrom prev xs := by
  induction xs generalizing prev with
  | nil => simp at h
  | cons y ys ih =>
      rw [uniqueFrom]
      rcases List.mem_cons.1 h with rfl | hys
      · by_cases hx : x = prev
        · exact Or.inl hx
        · exact Or.inr (by simp [hx])
      · by_cases hy : y = prev
        · rw [if_pos hy]
          exact ih hys
        · rw [if_neg hy]
          have hrest : x = y ∨ x ∈ uniqueFrom y ys := ih hys
          rcases hrest with rfl | hmem
          · exact Or.inr (by simp)
          · exact Or.inr (List.mem_cons_of_mem _ hmem)

theorem mem_of_mem_uniqueFrom {x prev : Bytes} {xs : List Bytes} (h : x ∈ uniqueFrom prev xs) :
    x ∈ xs := by
  induction xs generalizing prev with
  | nil => simp [uniqueFrom] at h
  | cons y ys ih =>
      rw [uniqueFrom] at h
      by_cases hy : y = prev
      · rw [if_pos hy] at h
        exact List.mem_cons_of_mem _ (ih h)
      · rw [if_neg hy] at h
        rcases List.mem_cons.1 h with rfl | h
        · exact List.mem_cons_self
        · exact List.mem_cons_of_mem _ (ih h)

theorem mem_of_mem_leftFrom {x prev : Bytes} {xs : List Bytes} (h : x ∈ leftFrom prev xs) :
    x = [] ∨ x ∈ xs := by
  induction xs generalizing prev with
  | nil => simp [leftFrom] at h
  | cons y ys ih =>
      rw [leftFrom] at h
      rcases List.mem_cons.1 h with hx | h
      · by_cases hy : y = prev
        · exact Or.inr (by rw [hx, if_pos hy]; exact List.mem_cons_self)
        · exact Or.inl (by rw [hx, if_neg hy])
      · rcases ih h with hx | hx
        · exact Or.inl hx
        · exact Or.inr (List.mem_cons_of_mem _ hx)

/-- Up to empty strings `unique` leaves the same elements. -/
theorem mem_unique {x : Bytes} (hx : x ≠ []) (xs : List Bytes) : x ∈ unique xs ↔ x ∈ xs := by
  cases xs with
  | nil => rfl
  | cons y ys =>
      rw [unique, List.mem_append, List.mem_cons, List.mem_cons]
      constructor
      · intro hcase
        rcases hcase with (rfl | h) | h
        · exact Or.inl rfl
        · exact Or.inr (mem_of_mem_uniqueFrom h)
        · rcases List.mem_cons.1 (List.mem_of_mem_drop h) with h | h
          · exact Or.inl h
          · rcases mem_of_mem_leftFrom h with h | h
            · exact absurd h hx
            · exact Or.inr h
      · intro hcase
        rcases hcase with rfl | h
        · exact Or.inl (Or.inl rfl)
        · exact Or.inl (mem_uniqueFrom h)

/-- A named field is exported for its name when that is, byte for byte, one of
the Connection options. -/
theorem mem_connectOpts {x : Bytes} (hx : x ≠ []) (src : Fields) :
    x ∈ connectOpts src ↔ x ∈ connectionTokens src := by
  rw [connectOpts, mem_unique hx, List.mem_mergeSort]

/-- The fields that stay are those that are no connect option, in their order. -/
theorem moveFields_fst (opts : List Bytes) (src dst : Fields) :
    (moveFields opts src dst).1 = src.filter (!isConnectOpt opts ·) := by
  induction src generalizing dst with
  | nil => rfl
  | cons f src ih =>
      rw [moveFields]
      by_cases hf : isConnectOpt opts f = true
      · simp [hf, ih]
      · simp [hf, ih]

theorem exportConnectFields_fst (src dst : Fields) :
    (exportConnectFields src dst).1 = src.filter (!isConnectOpt (connectOpts src) ·) :=
  moveFields_fst _ _ _

/-- No hop-by-hop field stays. -/
theorem equalRange_export_hop (src dst : Fields) {n : FieldName} (hn : n ∈ hopByHops) :
    (exportConnectFields src dst).1.equalRange n = [] := by
  rw [exportConnectFields_fst, Fields.equalRange, List.filter_filter, List.filter_eq_nil_iff]
  intro f _ hf
  simp only [Bool.and_eq_true, Bool.not_eq_true', isConnectOpt, Bool.or_eq_false_iff,
    List.any_eq_false] at hf
  exact hf.2.1 n hn hf.1

/-- Of the other fields those stay whose spelling no Connection option has. -/
theorem equalRange_export (src dst : Fields) {n : FieldName} (hn : n ∉ hopByHops) :
    (exportConnectFields src dst).1.equalRange n =
      (src.equalRange n).filter fun f => f.name ∉ connectionTokens src := by
  rw [exportConnectFields_fst, Fields.equalRange, Fields.equalRange, List.filter_filter,
    List.filter_filter]
  refine List.filter_congr fun f _ => ?_
  cases hf : f.is n with
  | false => simp
  | true =>
      have hhop : hopByHops.any (f.is ·) = false := by
        rw [List.any_eq_false]
        intro m hm
        rw [Bool.not_eq_true]
        exact f.is_of_ne hf (fun h => hn (h ▸ hm))
      have hname : f.name ≠ [] := by
        intro hnil
        have : iequals [] n.text = true := by rw [← hnil]; exact hf
        revert this
        cases n <;> decide
      simp [isConnectOpt, hhop, mem_connectOpts hname]

/-! ### What the rewrite leaves under a name -/

theorem equalRange_keepAliveFalse (h : Header S) {n : FieldName} (hn : n ≠ .connection) :
    h.keepAliveFalse.fields.equalRange n = h.fields.equalRange n := by
  simp only [Header.keepAliveFalse]
  split
  · rw [Fields.equalRange_erase, if_neg hn.symm]
  · rw [Fields.equalRange_set, if_neg hn.symm]

/-- Without a Transfer-Encoding field `chunked(true)` adds one and takes the
Content-Length out. -/
theorem equalRange_chunkedTrue (h : Header S) (n : FieldName)
    (hte : h.fields.equalRange .transferEncoding = []) :
    h.chunkedTrue.fields.equalRange n =
      if n = .contentLength then []
      else if n = .transferEncoding then [⟨FieldName.transferEncoding.text, ascii "chunked"⟩]
      else h.fields.equalRange n := by
  have hfind : h.fields.find .transferEncoding = none := by simp [Fields.find_eq_head?, hte]
  simp only [Header.chunkedTrue, hfind, Fields.equalRange_erase, Fields.equalRange_set, eq_comm]

variable {closeTunnel : Bool} {exported : Fields} {h : Header S} {r : Rewritten S}

theorem rewriteHeader_eq_some (hr : rewriteHeader closeTunnel exported h = some r) :
    hasFoxyVia h.fields = false ∧ r.closeTunnel = (closeTunnel || !h.keepAlive) ∧
      r.exported = (exportConnectFields h.fields exported).2 ∧
      ∃ h' : Header S, h'.start = h.start ∧ h'.version = h.version ∧
        (∀ n, n ≠ .connection →
          h'.fields.equalRange n = (exportConnectFields h.fields exported).1.equalRange n) ∧
        r.header = { (if h.chunked then h'.chunkedTrue else h') with
          fields := (if h.chunked then h'.chunkedTrue else h').fields.insert
            FieldName.via.text (ascii "1.1 foxy") } := by
  simp only [rewriteHeader] at hr
  cases hvia : hasFoxyVia h.fields with
  | true => simp [hvia] at hr
  | false =>
      simp only [hvia, Bool.false_eq_true, if_false, Option.some.injEq] at hr
      subst hr
      refine ⟨rfl, rfl, rfl, _, ?_, ?_, ?_, rfl⟩
      · split <;> rfl
      · split <;> rfl
      · intro n hn
        split
        · rw [equalRange_keepAliveFalse _ hn]
        · rfl

/-- The forwarded fields of a name: those that were not exported, unless the
message is chunked and the name is one that `chunked(true)` sees to. -/
theorem equalRange_rewrite (hr : rewriteHeader closeTunnel exported h = some r) {n : FieldName}
    (hn : n ≠ .connection) (hv : .via ≠ n) :
    r.header.fields.equalRange n =
      if h.chunked then
        if n = .contentLength then []
        else if n = .transferEncoding then [⟨FieldName.transferEncoding.text, ascii "chunked"⟩]
        else (exportConnectFields h.fields exported).1.equalRange n
      else (exportConnectFields h.fields exported).1.equalRange n := by
  obtain ⟨-, -, -, h', -, -, hkeep, hheader⟩ := rewriteHeader_eq_some hr
  have hte : h'.fields.equalRange .transferEncoding = [] := by
    rw [hkeep _ (by decide), equalRange_export_hop _ _ (by decide)]
  rw [hheader, Fields.equalRange_insert, if_neg hv]
  cases h.chunked with
  | false => exact hkeep n hn
  | true =>
      simp only [if_true]
      rw [equalRange_chunkedTrue _ _ hte, hkeep n hn]

/-- The start line is forwarded as it was read. -/
theorem start_rewrite (hr : rewriteHeader closeTunnel exported h = some r) :
    r.header.start = h.start := by
  obtain ⟨-, -, -, h', hstart, -, -, hheader⟩ := rewriteHeader_eq_some hr
  rw [hheader, ← hstart]
  cases h.chunked <;> rfl

/-- The Transfer-Encoding fields of a forwarded header. -/
theorem equalRange_rewrite_te (hr : rewriteHeader closeTunnel exported h = some r) :
    r.header.fields.equalRange .transferEncoding =
      if h.chunked then [⟨FieldName.transferEncoding.text, ascii "chunked"⟩] else [] := by
  rw [equalRange_rewrite hr (by decide) (by decide), equalRange_export_hop _ _ (by decide)]
  rfl

/-- The Content-Length fields of a forwarded header. -/
theorem equalRange_rewrite_length (hr : rewriteHeader closeTunnel exported h = some r) :
    r.header.fields.equalRange .contentLength =
      if h.chunked then []
      else (h.fields.equalRange .contentLength).filter
        fun f => f.name ∉ connectionTokens h.fields := by
  rw [equalRange_rewrite hr (by decide) (by decide), equalRange_export _ _ (by decide)]
  rfl

/-! ### Framing -/

/-- The headers whose framing and codings survive: without any transfer coding,
when a Content-Length there is stays in one spelling that no Connection option
has; or with `chunked` as the only coding, in the first Transfer-Encoding
field. -/
def FramingKept (h : Header S) : Prop :=
  (transferCodings h.fields = [] ∧
      (h.fields.equalRange .contentLength = [] ∨
        ∃ f ∈ h.fields.equalRange .contentLength, f.name ∉ connectionTokens h.fields)) ∨
    (transferCodings h.fields = [ascii "chunked"] ∧ h.chunked = true)

/-- `chunked()` speaks about the first of the fields the parser looks at. -/
theorem chunked_eq_true (hc : h.chunked = true) :
    ∃ f ∈ h.fields.equalRange .transferEncoding, endsInChunked f.value = true := by
  rw [Header.chunked, Fields.get, Fields.find_eq_head?] at hc
  cases hte : h.fields.equalRange .transferEncoding with
  | nil => simp [hte, endsInChunked, tokenList, scanTokens] at hc
  | cons f fs => exact ⟨f, by simp, by simpa [hte] using hc⟩

theorem parsedChunked_of_chunked (hc : h.chunked = true) : parsedChunked h.fields = true := by
  obtain ⟨f, hf, hends⟩ := chunked_eq_true hc
  exact List.any_eq_true.2 ⟨f, hf, hends⟩

/-- A body the parser decodes has a transfer coding. -/
theorem transferCodings_ne_nil {fs : Fields} (hc : parsedChunked fs = true) :
    transferCodings fs ≠ [] := by
  obtain ⟨f, hf, hends⟩ := List.any_eq_true.1 hc
  intro hnil
  have htokens : tokenList f.value = [] := by
    simp only [transferCodings, List.map_eq_nil_iff, List.flatMap_eq_nil_iff] at hnil
    exact hnil f hf
  simp [endsInChunked, htokens] at hends

theorem parsedChunked_eq_false {fs : Fields} (h : transferCodings fs = []) :
    parsedChunked fs = false := by
  cases hc : parsedChunked fs with
  | false => rfl
  | true => exact absurd h (transferCodings_ne_nil hc)

/-- All Content-Length fields of an accepted header declare the same length, so
it is lost only with the last of them. -/
theorem contentLength_eq_iff {fs gs : Fields} (hacc : Accepted fs) (q : Field → Prop)
    [DecidablePred q]
    (hgs : gs.equalRange .contentLength = (fs.equalRange .contentLength).filter q) :
    contentLength gs = contentLength fs ↔
      fs.equalRange .contentLength = [] ∨ ∃ f ∈ fs.equalRange .contentLength, q f := by
  cases hkept : gs.equalRange .contentLength with
  | nil =>
      have hnone := contentLength_eq_none hkept
      rw [hnone]
      rw [hkept, eq_comm, List.filter_eq_nil_iff] at hgs
      constructor
      · intro hfs
        left
        by_contra hne
        obtain ⟨f, hf⟩ := List.exists_mem_of_ne_nil _ hne
        obtain ⟨hsome, heq⟩ := hacc.lengths f hf
        rw [heq, ← hfs] at hsome
        simp at hsome
      · intro hcase
        rcases hcase with hnil | ⟨f, hf, hq⟩
        · rw [contentLength_eq_none hnil]
        · exact absurd (by simpa using hq) (hgs f hf)
  | cons g rest =>
      have hg : g ∈ (fs.equalRange .contentLength).filter q := by rw [← hgs, hkept]; simp
      obtain ⟨hmem, hq⟩ := List.mem_filter.1 hg
      have hcl : contentLength gs = declaredLength g.value := by
        simp [contentLength, Fields.find_eq_head?, hkept]
      rw [hcl, (hacc.lengths g hmem).2]
      exact ⟨fun _ => Or.inr ⟨g, hmem, by simpa using hq⟩, fun _ => rfl⟩

/-- Without chunks the framing is the declared length. -/
theorem framing_eq_iff {fs gs : Fields} (hf : parsedChunked fs = false)
    (hg : parsedChunked gs = false) :
    framing gs = framing fs ↔ contentLength gs = contentLength fs := by
  simp only [framing, hf, hg, Bool.false_eq_true, if_false]
  cases contentLength gs <;> cases contentLength fs <;> simp

/-- The header that is forwarded declares the framing and the transfer codings
of the one that was read exactly when `FramingKept` holds of the latter. -/
theorem rewriteHeader_framing_iff (hacc : Accepted h.fields)
    (hr : rewriteHeader closeTunnel exported h = some r) :
    (framing r.header.fields = framing h.fields ∧
        transferCodings r.header.fields = transferCodings h.fields) ↔ FramingKept h := by
  have hte := equalRange_rewrite_te hr
  have hcl := equalRange_rewrite_length hr
  cases hc : h.chunked with
  | true =>
      -- forwarded as a chunked message, whatever the other codings were
      simp only [hc, if_true] at hte hcl
      have hcodings : transferCodings r.header.fields = [ascii "chunked"] := by
        rw [transferCodings, hte]
        decide +kernel
      have hparsed : parsedChunked r.header.fields = true := by
        rw [parsedChunked, hte]
        decide +kernel
      have hin := parsedChunked_of_chunked hc
      have hframing : framing r.header.fields = framing h.fields := by
        simp [framing, hparsed, hin]
      rw [hcodings, FramingKept]
      constructor
      · intro hsame
        obtain ⟨-, heq⟩ := hsame
        exact Or.inr ⟨heq.symm, hc⟩
      · intro hcase
        rcases hcase with ⟨hnil, -⟩ | ⟨heq, -⟩
        · exact absurd hnil (transferCodings_ne_nil hin)
        · exact ⟨hframing, heq.symm⟩
  | false =>
      -- forwarded without any coding
      simp only [hc, Bool.false_eq_true, if_false] at hte hcl
      have hcodings : transferCodings r.header.fields = [] := by rw [transferCodings, hte]; rfl
      have hparsed : parsedChunked r.header.fields = false := by rw [parsedChunked, hte]; rfl
      rw [hcodings, FramingKept, hc]
      have hlength := contentLength_eq_iff hacc (fun f => f.name ∉ connectionTokens h.fields) hcl
      constructor
      · intro hsame
        obtain ⟨hframing, hnil⟩ := hsame
        have hin := parsedChunked_eq_false hnil.symm
        exact Or.inl ⟨hnil.symm, hlength.1 ((framing_eq_iff hin hparsed).1 hframing)⟩
      · intro hcase
        rcases hcase with ⟨hnil, hkept⟩ | ⟨-, hfalse⟩
        · have hin := parsedChunked_eq_false hnil
          exact ⟨(framing_eq_iff hin hparsed).2 (hlength.2 hkept), hnil.symm⟩
        · exact absurd hfalse (by simp)

/-- `POST / HTTP/1.1` with the given fields. -/
def post (fields : Fields) : Request := ⟨⟨.other (ascii "POST"), ascii "/"⟩, 11, fields⟩

/-- A chunked request keeps its coding. -/
theorem rewriteHeader_framing_chunked :
    ∃ r, rewriteHeader false [] (post [⟨ascii "Transfer-Encoding", ascii "chunked"⟩]) = some r ∧
      transferCodings r.header.fields = [ascii "chunked"] := by
  obtain ⟨r, hr⟩ : ∃ r, rewriteHeader false []
      (post [⟨ascii "Transfer-Encoding", ascii "chunked"⟩]) = some r := ⟨_, rfl⟩
  have hkept := (rewriteHeader_framing_iff (by decide +kernel) hr).2 (Or.inr (by decide +kernel))
  refine ⟨r, hr, ?_⟩
  rw [hkept.2]
  decide +kernel

/-- `gzip, chunked` is forwarded as `chunked`, and a Content-Length that a
Connection field names is forwarded nowhere. -/
theorem rewriteHeader_framing_lost :
    (Accepted (post [⟨ascii "Transfer-Encoding", ascii "gzip, chunked"⟩]).fields ∧
      ∃ r, rewriteHeader false [] (post [⟨ascii "Transfer-Encoding", ascii "gzip, chunked"⟩]) =
          some r ∧
        transferCodings r.header.fields ≠
          transferCodings (post [⟨ascii "Transfer-Encoding", ascii "gzip, chunked"⟩]).fields) ∧
    (Accepted (post [⟨ascii "Connection", ascii "Content-Length"⟩,
        ⟨ascii "Content-Length", ascii "3"⟩]).fields ∧
      ∃ r, rewriteHeader false [] (post [⟨ascii "Connection", ascii "Content-Length"⟩,
          ⟨ascii "Content-Length", ascii "3"⟩]) = some r ∧
        framing r.header.fields = .unframed) := by
  refine ⟨⟨by decide +kernel, _, rfl, by decide +kernel⟩, ⟨by decide +kernel, _, rfl, ?_⟩⟩
  decide +kernel

end Foxy.Detail
