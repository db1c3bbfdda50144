import Foxy.Lib.Script
import Foxy.X3

/-!
# Foxy.Session.Basic

A session (`foxy/session.hpp`): options, a stream that is a plain socket or TLS
over one (`foxy/multi_stream.hpp`), a buffer and a timer.

The routines of the sessions are scripts over the operations of Asio, Beast and
OpenSSL that they call. Of those the model assumes what their documentation
says: a socket that was closed carries nothing any more; connecting opens the
socket, and fails once it is closed meanwhile; a handshake that was not made yet
and the write of a message need the socket. An operation may fail at any time.

`async_timer` is here what `Foxy.Detail.TimedOp` says of it: as long as the
operation it wraps is not through, the time may run out once, and the stream is
then closed. An answer that is waiting to be delivered stays as it is.
-/

namespace Foxy

open Lib

/-- The error codes the sessions tell apart. -/
inductive ErrorCode
  | operationAborted
  | eof
  | streamTruncated
  | other (value : Nat)
  deriving Repr, DecidableEq

/-- What an operation answers: what its handler is called with, and for one that
reads, the bytes it put into the session's buffer and how many it took out of it. -/
structure Answer where
  ec : Option ErrorCode := none
  bytesTransferred : Nat := 0
  detectedSsl : Bool := false
  received : Bytes := []
  consumed : Nat := 0
  deriving Repr, DecidableEq

/-- `session_opts`: whether a TLS context is there, and whether the peer's
certificate is to be verified. -/
structure SessionOpts where
  sslCtx : Bool := false
  verifyPeerCert : Bool := true
  deriving Repr, DecidableEq

structure Socket where
  isOpen : Bool := false
  deriving Repr, DecidableEq

/-- The TLS half of a stream: the name it asks the peer for, the name it expects
in the peer's certificate, and what both were when its handshake was made. -/
structure Ssl where
  sni : Option Bytes := none
  verifyHost : Option Bytes := none
  handshake : Option (Option Bytes × Option Bytes) := none
  deriving Repr, DecidableEq

/-- `basic_multi_stream`. -/
inductive MultiStream
  | plain (socket : Socket)
  | ssl (socket : Socket) (tls : Ssl)
  deriving Repr, DecidableEq

namespace MultiStream

def isSsl : MultiStream → Bool
  | plain _ => false
  | ssl _ _ => true

/-- `plain()`: the socket, under TLS or not. -/
def socket : MultiStream → Socket
  | plain socket => socket
  | ssl socket _ => socket

/-- `ssl()`, where the stream has it. -/
def ssl? : MultiStream → Option Ssl
  | plain _ => none
  | ssl _ tls => some tls

/-- `upgrade(ctx)`: a new TLS stream over the socket there is. -/
def upgrade (s : MultiStream) : MultiStream := ssl s.socket {}

def setOpen (isOpen : Bool) : MultiStream → MultiStream
  | plain _ => plain ⟨isOpen⟩
  | ssl _ tls => ssl ⟨isOpen⟩ tls

def updateSsl (f : Ssl → Ssl) : MultiStream → MultiStream
  | plain socket => plain socket
  | ssl socket tls => ssl socket (f tls)

variable (s : MultiStream) (b : Bool) (f : Ssl → Ssl)

@[simp] theorem isSsl_setOpen : (s.setOpen b).isSsl = s.isSsl := by cases s <;> rfl
@[simp] theorem isSsl_updateSsl : (s.updateSsl f).isSsl = s.isSsl := by cases s <;> rfl
@[simp] theorem socket_setOpen : (s.setOpen b).socket = ⟨b⟩ := by cases s <;> rfl
@[simp] theorem socket_updateSsl : (s.updateSsl f).socket = s.socket := by cases s <;> rfl
@[simp] theorem ssl?_setOpen : (s.setOpen b).ssl? = s.ssl? := by cases s <;> rfl
@[simp] theorem ssl?_updateSsl : (s.updateSsl f).ssl? = s.ssl?.map f := by cases s <;> rfl

end MultiStream

inductive Role
  | client
  | server
  deriving Repr, DecidableEq

inductive ShutdownType
  | receive
  | send
  | both
  deriving Repr, DecidableEq

/-- What the sessions call. The last four and the two names are done on the spot. -/
inductive SessionOp
  /-- `boost::asio::post` of the routine itself. -/
  | post
  | resolve (host service : Bytes)
  | connect
  /-- `async_handshake`, with the bytes in the session's buffer or without. -/
  | handshake (role : Role) (buffered : Bool)
  | sslShutdown
  | read
  | readHeader
  | write
  | writeHeader
  /-- `async_read_some` into so much room, none of which is committed. -/
  | readSome (room : Nat)
  | detectSsl
  | setSniHostname (host : Bytes)
  | setServerHostname (host : Bytes)
  | shutdown (what : ShutdownType)
  | close
  deriving Repr, DecidableEq

namespace SessionOp

def isAsync : SessionOp → Bool
  | setSniHostname _ | setServerHostname _ | shutdown _ | close => false
  | _ => true

end SessionOp

inductive Timer
  | idle
  | armed
  | expired
  deriving Repr, DecidableEq

/-- A byte that a session received, and whether it came out of TLS. -/
structure ReceivedByte where
  value : UInt8
  overTls : Bool
  deriving Repr, DecidableEq

/-- `basic_session`, and around it what can be seen from outside. -/
structure Session where
  opts : SessionOpts
  stream : MultiStream
  buffer : List ReceivedByte := []
  timer : Timer := .idle
  /-- What was called, in order. -/
  log : List SessionOp := []
  /-- The operation in which the time ran out last. -/
  expiredIn : Option SessionOp := none
  /-- What the parsers were given. -/
  parsed : List ReceivedByte := []

namespace Session

/-- `basic_session(executor, opts)`. -/
def ofOpts (opts : SessionOpts) : Session :=
  { opts, stream := if opts.sslCtx then .ssl {} {} else .plain {} }

def isOpen (s : Session) : Bool := s.stream.socket.isOpen

/-- The handshake was made. -/
def handshaken (s : Session) : Bool :=
  match s.stream.ssl? with
  | some tls => tls.handshake.isSome
  | none => false

/-- The time runs out: `close(stream)`. -/
def expire (s : Session) (op : SessionOp) : Session :=
  { s with stream := s.stream.setOpen false, timer := .expired, expiredIn := some op }

/-- Bytes as the stream delivers them. -/
def incoming (s : Session) (received : Bytes) : List ReceivedByte :=
  received.map fun value => { value, overTls := s.stream.isSsl }

/-- The buffer once a read has received these bytes. -/
def filled (s : Session) (received : Bytes) : List ReceivedByte :=
  s.buffer ++ s.incoming received

/-- A read of a message, or of a part of one. -/
def fill (s : Session) (a : Answer) : Session :=
  { s with
    buffer := (s.filled a.received).drop a.consumed
    parsed := s.parsed ++ (s.filled a.received).take a.consumed }

/-- An operation is called. -/
def initiate (s : Session) (op : SessionOp) : Session :=
  match op with
  | .connect => { s with log := s.log ++ [op], stream := s.stream.setOpen true }
  | _ => { s with log := s.log ++ [op] }

/-- The answers an operation can have. -/
def allows (s : Session) (op : SessionOp) (a : Answer) : Bool :=
  match op with
  | .connect | .write | .writeHeader => a.ec.isSome || s.isOpen
  | .handshake _ buffered =>
    (a.ec.isSome || s.isOpen || s.handshaken) &&
      decide (a.bytesTransferred ≤ if buffered then s.buffer.length else 0)
  | .read | .readHeader => decide (a.consumed ≤ s.buffer.length + a.received.length)
  | .detectSsl => a.consumed == 0
  | _ => true

/-- What an operation has done to the session when it completes. -/
def effect (s : Session) (op : SessionOp) (a : Answer) : Session :=
  match op with
  | .handshake _ _ =>
    if a.ec.isSome || s.handshaken then s
    else
      { s with
        stream := s.stream.updateSsl fun tls =>
          { tls with handshake := some (tls.sni, tls.verifyHost) } }
  | .read | .readHeader | .detectSsl => s.fill a
  | .setSniHostname host =>
    if a.ec.isSome then s
    else { s with stream := s.stream.updateSsl fun tls => { tls with sni := some host } }
  | .setServerHostname host =>
    if a.ec.isSome then s
    else { s with stream := s.stream.updateSsl fun tls => { tls with verifyHost := some host } }
  | .close => { s with stream := s.stream.setOpen false }
  | _ => s

/-- The answer of an operation when the time runs out before it is delivered:
`async_connect` looks whether the socket is still open. -/
def lateAnswer (op : SessionOp) (a : Answer) : Answer :=
  match op with
  | .connect => { a with ec := some .operationAborted }
  | _ => a

def mayExpire (s : Session) (op : SessionOp) : Bool := op.isAsync && s.timer == .armed

end Session

/-- The network, TLS and the session's timer. -/
def net : Surroundings Session SessionOp Answer Unit where
  initiate := Session.initiate
  complete s op a := if s.allows op a then some (s.effect op a) else none
  disturb s op _ := if s.mayExpire op then some (s.expire op) else none
  late s op a _ := if s.mayExpire op then some (s.expire op, Session.lateAnswer op a) else none

/-- A routine of a session. -/
abbrev Routine (α : Type) := Script Session SessionOp Answer α

/-- How a routine ends: it completes, throws, or `ssl()` of a plain stream
terminates the program. -/
inductive Outcome
  | completed (a : Answer)
  | threw (ec : ErrorCode)
  | terminated
  deriving Repr, DecidableEq

namespace Session

def arm (s : Session) : Session := { s with timer := .armed, expiredIn := none }

def disarm (s : Session) : Session := { s with timer := .idle }

/-- `async_timer`. After an exception the wait on the timer is still there. -/
def asyncTimer (p : Routine Outcome) : Routine Outcome :=
  .modify arm (p.bind fun
    | .completed a => .modify disarm (.done (.completed a))
    | o => .done o)

/-- `self.complete(ec)`. -/
def complete (ec : Option ErrorCode) : Routine Outcome := .done (.completed { ec })

/-- Go on where a routine has completed without error. -/
def onSuccess (p : Routine Outcome) (k : Answer → Routine Outcome) : Routine Outcome :=
  p.bind fun o =>
    match o with
    | .completed a => if a.ec.isNone then k a else .done o
    | _ => .done o

/-- The start of a routine that is posted. -/
def posted : Routine Outcome := .call .post fun a => .done (.completed a)

/-- `async_read(parser)`. -/
def asyncRead : Routine Outcome := asyncTimer (.call .read fun a => .done (.completed a))

/-- `async_read_header(parser)`. -/
def asyncReadHeader : Routine Outcome :=
  asyncTimer (.call .readHeader fun a => .done (.completed a))

/-- `async_write(serializer)`. -/
def asyncWrite : Routine Outcome := asyncTimer (.call .write fun a => .done (.completed a))

/-- `async_write_header(serializer)`. -/
def asyncWriteHeader : Routine Outcome :=
  asyncTimer (.call .writeHeader fun a => .done (.completed a))

/-! ### What an operation can do -/

variable {s s' : Session} {op : SessionOp} {a : Answer}

/-- A pending operation has the session as the call left it, but for the time
running out. -/
theorem pending_cases (h : net.Pending op s s') :
    s' = s.initiate op ∨
      (s.initiate op).mayExpire op = true ∧ s' = (s.initiate op).expire op := by
  induction h with
  | initiate => exact Or.inl rfl
  | @disturb s₁ s₂ e _ hs ih =>
      by_cases hm : s₁.mayExpire op = true
      · have hs : s₁.expire op = s₂ := by simpa [net, hm] using hs
        rcases ih with rfl | ⟨-, rfl⟩
        · exact Or.inr ⟨hm, hs.symm⟩
        · simp [mayExpire, expire] at hm
      · simp [net, hm] at hs

/-- What is delivered was answered before or after the time ran out, or without
that. -/
theorem delivers_cases (h : net.Delivers op s a s') :
    (s.initiate op).allows op a = true ∧ s' = (s.initiate op).effect op a ∨
    (s.initiate op).mayExpire op = true ∧ ((s.initiate op).expire op).allows op a = true ∧
      s' = ((s.initiate op).expire op).effect op a ∨
    ∃ a₀, (s.initiate op).allows op a₀ = true ∧
      ((s.initiate op).effect op a₀).mayExpire op = true ∧
      s' = ((s.initiate op).effect op a₀).expire op ∧ a = lateAnswer op a₀ := by
  induction h with
  | @complete s₁ s₂ a hp hc =>
      by_cases ha : s₁.allows op a = true
      · have hc : s₁.effect op a = s₂ := by simpa [net, ha] using hc
        rcases pending_cases hp with rfl | ⟨hm, rfl⟩
        · exact Or.inl ⟨ha, hc.symm⟩
        · exact Or.inr (Or.inl ⟨hm, ha, hc.symm⟩)
      · simp [net, ha] at hc
  | @late s₁ s₂ a a' e _ hs ih =>
      by_cases hm : s₁.mayExpire op = true
      · have hs : s₁.expire op = s₂ ∧ lateAnswer op a = a' := by simpa [net, hm] using hs
        obtain ⟨rfl, rfl⟩ := hs
        rcases ih with ⟨ha, rfl⟩ | ⟨-, -, rfl⟩ | ⟨a₀, -, -, rfl, -⟩
        · exact Or.inr (Or.inr ⟨a, ha, hm, rfl, rfl⟩)
        · have htimer : (((s.initiate op).expire op).effect op a).timer = .expired := by
            unfold effect
            repeat' split
            all_goals rfl
          simp [mayExpire, htimer] at hm
        · simp [mayExpire, expire] at hm
      · simp [net, hm] at hs

/-! ### What every operation leaves -/

section fields

variable (s : Session) (op : SessionOp) (a : Answer)

@[simp] theorem initiate_log : (s.initiate op).log = s.log ++ [op] := by
  unfold initiate; split <;> rfl
@[simp] theorem initiate_opts : (s.initiate op).opts = s.opts := by
  unfold initiate; split <;> rfl
@[simp] theorem initiate_timer : (s.initiate op).timer = s.timer := by
  unfold initiate; split <;> rfl
@[simp] theorem initiate_expiredIn : (s.initiate op).expiredIn = s.expiredIn := by
  unfold initiate; split <;> rfl
@[simp] theorem initiate_buffer : (s.initiate op).buffer = s.buffer := by
  unfold initiate; split <;> rfl
@[simp] theorem initiate_parsed : (s.initiate op).parsed = s.parsed := by
  unfold initiate; split <;> rfl
@[simp] theorem initiate_isSsl : (s.initiate op).stream.isSsl = s.stream.isSsl := by
  unfold initiate; split <;> simp
@[simp] theorem initiate_ssl? : (s.initiate op).stream.ssl? = s.stream.ssl? := by
  unfold initiate; split <;> simp

@[simp] theorem effect_log : (s.effect op a).log = s.log := by
  unfold effect; repeat' split
  all_goals rfl
@[simp] theorem effect_timer : (s.effect op a).timer = s.timer := by
  unfold effect; repeat' split
  all_goals rfl
@[simp] theorem effect_expiredIn : (s.effect op a).expiredIn = s.expiredIn := by
  unfold effect; repeat' split
  all_goals rfl
@[simp] theorem effect_isSsl : (s.effect op a).stream.isSsl = s.stream.isSsl := by
  unfold effect; repeat' split
  all_goals simp [fill]

@[simp] theorem expire_log : (s.expire op).log = s.log := rfl
@[simp] theorem expire_opts : (s.expire op).opts = s.opts := rfl
@[simp] theorem expire_expiredIn : (s.expire op).expiredIn = some op := rfl
@[simp] theorem expire_buffer : (s.expire op).buffer = s.buffer := rfl
@[simp] theorem expire_parsed : (s.expire op).parsed = s.parsed := rfl
@[simp] theorem expire_isSsl : (s.expire op).stream.isSsl = s.stream.isSsl := by simp [expire]
@[simp] theorem expire_ssl? : (s.expire op).stream.ssl? = s.stream.ssl? := by simp [expire]
@[simp] theorem expire_isOpen : (s.expire op).isOpen = false := by simp [expire, isOpen]

end fields

/-- Connecting and closing are the only calls that touch the socket. -/
theorem initiate_isOpen (s : Session) {op : SessionOp} (h : op ≠ .connect) :
    (s.initiate op).isOpen = s.isOpen := by
  unfold initiate
  split
  · exact absurd rfl h
  · rfl

theorem effect_isOpen (s : Session) {op : SessionOp} (h : op ≠ .close) (a : Answer) :
    (s.effect op a).isOpen = s.isOpen := by
  unfold effect
  repeat' split
  all_goals first | exact absurd rfl h | simp [isOpen, fill]

theorem pending_log (h : net.Pending op s s') : s'.log = s.log ++ [op] := by
  rcases pending_cases h with rfl | ⟨-, rfl⟩ <;> simp

theorem delivers_log (h : net.Delivers op s a s') : s'.log = s.log ++ [op] := by
  rcases delivers_cases h with ⟨-, rfl⟩ | ⟨-, -, rfl⟩ | ⟨a₀, -, -, rfl, -⟩ <;> simp

theorem delivers_isSsl (h : net.Delivers op s a s') : s'.stream.isSsl = s.stream.isSsl := by
  rcases delivers_cases h with ⟨-, rfl⟩ | ⟨-, -, rfl⟩ | ⟨a₀, -, -, rfl, -⟩ <;> simp

/-- What is done on the spot is done before anything else can happen. -/
theorem delivers_sync (hop : op.isAsync = false) (h : net.Delivers op s a s') :
    s' = (s.initiate op).effect op a := by
  rcases delivers_cases h with ⟨-, rfl⟩ | ⟨hm, -⟩ | ⟨a₀, -, hm, -⟩
  · rfl
  · simp [mayExpire, hop] at hm
  · simp [mayExpire, hop] at hm

theorem delivers_close (h : net.Delivers .close s a s') : s'.isOpen = false := by
  rw [delivers_sync rfl h]
  simp [effect, isOpen]

/-- A routine under the timer: it starts with the timer set, and what holds at its
end must not depend on the timer. -/
theorem wp_asyncTimer {I : Session → Prop} {Q : Outcome → Session → Prop} {p : Routine Outcome}
    (h : net.wp I p Q s.arm) (hI : ∀ s, I s → I s.disarm) (hQ : ∀ o s, Q o s → Q o s.disarm) :
    net.wp I (asyncTimer p) Q s := by
  refine Surroundings.wp_bind h ?_
  intro o s' hi hq
  cases o with
  | completed a => exact ⟨hI s' hi, hQ _ s' hq⟩
  | threw ec => exact ⟨hi, hq⟩
  | terminated => exact ⟨hi, hq⟩

theorem wp_onSuccess {I : Session → Prop} {Q R : Outcome → Session → Prop} {p : Routine Outcome}
    {k : Answer → Routine Outcome} (hp : net.wp I p Q s)
    (hk : ∀ a s', a.ec = none → I s' → Q (.completed a) s' → net.wp I (k a) R s')
    (hR : ∀ o s', (∀ a, o = .completed a → a.ec ≠ none) → I s' → Q o s' → R o s') :
    net.wp I (onSuccess p k) R s := by
  refine Surroundings.wp_bind hp ?_
  intro o s' hi hQ
  split
  · rename_i a
    split
    · rename_i hnone
      exact hk a s' (Option.isNone_iff_eq_none.1 hnone) hi hQ
    · rename_i hsome
      refine ⟨hi, hR _ s' ?_ hi hQ⟩
      intro b hb
      obtain rfl : a = b := by simpa using hb
      simpa [Option.isNone_iff_eq_none] using hsome
  · rename_i hno
    exact ⟨hi, hR _ s' (fun a ha => absurd ha (hno a)) hi hQ⟩

theorem wp_posted (s : Session) :
    net.wp (fun _ => True) posted (fun _ s' => s'.stream.isSsl = s.stream.isSsl) s :=
  ⟨fun _ _ => trivial, fun _ _ hd => ⟨trivial, trivial, delivers_isSsl hd⟩⟩

/-! ### Plans -/

/-- What was called so far is the beginning of the plan. -/
def OnPlan (plan : List SessionOp) (s : Session) : Prop := s.log <+: plan

/-- A call that is next in the plan. -/
theorem wp_call_plan {plan rest : List SessionOp} {op : SessionOp} {k : Answer → Routine Outcome}
    {Q : Outcome → Session → Prop} (hplan : plan = s.log ++ op :: rest)
    (hk : ∀ a s', net.Delivers op s a s' → OnPlan plan s' → net.wp (OnPlan plan) (k a) Q s') :
    net.wp (OnPlan plan) (.call op k) Q s := by
  have hbegun : s.log ++ [op] <+: plan := ⟨rest, by simp [hplan]⟩
  refine ⟨?_, ?_⟩
  · intro s' hp
    rw [OnPlan, pending_log hp]
    exact hbegun
  · intro a s' hd
    have hs' : OnPlan plan s' := by
      rw [OnPlan, delivers_log hd]
      exact hbegun
    exact ⟨hs', hk a s' hd hs'⟩

end Session

end Foxy
