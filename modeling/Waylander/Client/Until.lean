import Waylander.Client.MessageOverloadSet
import Waylander.Client.WholeMessages

/-!
# Receiving and visiting events

`recv_events` and `recvis_closure::until`.  Overloads and until callbacks are
code of the user: what one of them does next is an arbitrary function of
everything that happened before, recorded as a trace of events.  It may return,
throw, or call `until` on the same client, and so `until` is defined with
itself as a parameter of the loop that visits messages.

The trace is history.  No branch of the source depends on it.
-/

namespace Waylander

open Goto

variable {σ ω : Type}

/-- Read non-zero amount of bytes and return parser with all whole messages
received. -/
def recvEvents (host : Host σ) (fuel : ℕ) (c : ConnectedClient σ) :
    Option (Except Exception MessageParser × ConnectedClient σ) := do
  let (r, c) ← recvMoreData host fuel c
  match r with
  | .error e => return (.error e, c)
  | .ok _ =>
      let bytesToParse ← getRecdBytesFormingWholeMessages fuel c.recvBuff
      let parser : MessageParser := { unparsedMessages := bytesToParse }
      return (.ok parser, { c with recvBuff := c.recvBuff.drop bytesToParse.length })

/-- The arguments of `recv_and_visit_events(mos).until(...)`. -/
structure UntilCall (ω : Type) where
  mos : MessageOverloadSet ω
  untilObjId : Wobject
  untilOpcode : Wopcode
  /-- There is an until callback. -/
  callback : Bool

/-- How a call on the client ends. -/
inductive Exit
  | normal
  | threw (e : Exception)
  /-- The behaviour is undefined. -/
  | undefined
  deriving DecidableEq

/-- What an overload or until callback does next. -/
inductive CallbackAction (ω : Type)
  | returns
  | throws
  | callsUntil (call : UntilCall ω)

/-- What a visited message is handed to. -/
inductive Handler (ω : Type)
  | skipped
  | overload (ov : ω)
  | untilCallback
  | noCallback

inductive Event (σ ω : Type)
  /-- `recv_more_data` is called on the client. -/
  | reads (c : ConnectedClient σ)
  /-- A message that was received at the given position of the stream is handed
  over. -/
  | visited (position : ℕ) (msg : ParsedMessage) (handler : Handler ω)
  /-- A call that a callback made has ended. -/
  | returned (exit : Exit)
  /-- `recv_buff_`, which holds `held` bytes, is asked to erase `count`. -/
  | erased (count held : ℕ)
  /-- `recv_events` returns the parser. -/
  | parsed (parser : MessageParser)

/-- A client and its history. -/
structure Session (σ ω : Type) where
  client : ConnectedClient σ
  /-- How often `recv_buff_` may have been moved by a `resize`. -/
  resizes : ℕ := 0
  trace : List (Event σ ω) := []

def Session.start (server : σ) : Session σ ω where
  client := .connect server

namespace Session

def log (w : Session σ ω) (event : Event σ ω) : Session σ ω :=
  { w with trace := w.trace ++ [event] }

/-- The position in the stream of the first byte of `recv_buff_`. -/
def position (w : Session σ ω) : ℕ :=
  w.client.serverSock.received.length - w.client.recvBuff.length

/-- The session after `recv_more_data` was called and left the client `c`. -/
def afterRead (w : Session σ ω) (c : ConnectedClient σ) : Session σ ω :=
  { w.log (.reads w.client) with client := c, resizes := w.resizes + 1 }

def recvMoreData (host : Host σ) (fuel : ℕ) (w : Session σ ω) :
    Option (Except Exception Unit × Session σ ω) := do
  let (r, c) ← Waylander.recvMoreData host fuel w.client
  return (r, w.afterRead c)

/-- `recv_buff_.erase` of the first `count` bytes. -/
def erase (count : ℕ) (w : Session σ ω) : Exit × Session σ ω :=
  let held := w.client.recvBuff.length
  let w := w.log (.erased count held)
  if count ≤ held then
    (.normal, { w with client := { w.client with recvBuff := w.client.recvBuff.drop count } })
  else
    (.undefined, w)

end Session

section Until

variable (callbacks : List (Event σ ω) → CallbackAction ω)
variable (reenter : UntilCall ω → Session σ ω → Option (Exit × Session σ ω))

/-- The next action of a function object that was invoked. -/
def callbackStep (w : Session σ ω) : Option (Jump (Session σ ω) (Exit × Session σ ω)) :=
  match callbacks w.trace with
  | .returns => some (.exit (.normal, w))
  | .throws => some (.exit (.threw .callbackError, w))
  | .callsUntil call => do
      let (exit, w) ← reenter call w
      if exit = .undefined then
        return .exit (.undefined, w)
      else
        return .again (w.log (.returned exit))

def invoke (fuel : ℕ) (w : Session σ ω) : Option (Exit × Session σ ω) :=
  run (fun _ => callbackStep callbacks reenter) fuel w

/-- Hand a message that was received at `position` to its handler. -/
def handOver (fuel position : ℕ) (msg : ParsedMessage) (handler : Handler ω)
    (w : Session σ ω) : Option (Exit × Session σ ω) :=
  let w := w.log (.visited position msg handler)
  match handler with
  | .skipped => some (.normal, w)
  | .overload _ => invoke callbacks reenter fuel w
  | .untilCallback => invoke callbacks reenter fuel w
  | .noCallback => some (.normal, w)

/-- The message is the "until message". -/
def UntilCall.Matches (call : UntilCall ω) (msg : ParsedMessage) : Prop :=
  msg.objectId = call.untilObjId ∧ msg.opcode = call.untilOpcode

instance (call : UntilCall ω) (msg : ParsedMessage) : Decidable (call.Matches msg) :=
  inferInstanceAs (Decidable (_ ∧ _))

/-- The variables of the loop over the parsed messages. -/
structure VisitLocals (σ ω : Type) where
  /-- The offset of the generator's `NUM_begin` in the span. -/
  numBegin : ℕ := 0
  totalNumParsedMessages : ℕ := 0
  totalParsedArgumentBytes : ℕ := 0
  session : Session σ ω

variable (call : UntilCall ω)

/-- One round of the loop over the messages that the generator finds in the
first `spanSize` bytes of `recv_buff_`.  The span was taken after `resizes`
resizes; it is dangling after a further one.  The loop ends with the way `until`
is left, if it is. -/
def visitNext (spanSize resizes fuel : ℕ) (l : VisitLocals σ ω) :
    Option (Jump (VisitLocals σ ω) (Option Exit × Session σ ω)) :=
  let w := l.session
  if l.numBegin = spanSize then
    some (.exit (none, w))
  else if w.resizes ≠ resizes ∨ w.client.recvBuff.length < spanSize then
    some (.exit (some .undefined, w))
  else
    match parseNUM ((w.client.recvBuff.take spanSize).drop l.numBegin) with
    | .error e => some (.exit (some (.threw e), w))
    | .ok msg =>
        let position := w.position + l.numBegin
        let totalNumParsedMessages := l.totalNumParsedMessages + 1
        let totalParsedArgumentBytes := l.totalParsedArgumentBytes + msg.arguments.length
        if call.Matches msg then do
          -- Found "until message".
          let handler := if call.callback then Handler.untilCallback else .noCallback
          let (exit, w) ← handOver callbacks reenter fuel position msg handler w
          if exit = .normal then
            let totalParsedBytes :=
              messageHeaderSize * totalNumParsedMessages + totalParsedArgumentBytes
            let (exit, w) := w.erase totalParsedBytes
            return .exit (some exit, w)
          else
            return .exit (some exit, w)
        else do
          let handler :=
            match call.mos.overloadResolution msg.objectId msg.opcode with
            | some ov => Handler.overload ov
            -- Skip messages without overloads.
            | none => .skipped
          let (exit, w) ← handOver callbacks reenter fuel position msg handler w
          if exit = .normal then
            return .again
              { numBegin := l.numBegin + (messageHeaderSize + msg.arguments.length)
                totalNumParsedMessages := totalNumParsedMessages
                totalParsedArgumentBytes := totalParsedArgumentBytes
                session := w }
          else
            return .exit (some exit, w)

variable (host : Host σ)

/-- From the label `try_again` to the next jump. -/
def tryAgain (fuel : ℕ) (w : Session σ ω) :
    Option (Jump (Session σ ω) (Exit × Session σ ω)) := do
  let bytesToParse ← getRecdBytesFormingWholeMessages fuel w.client.recvBuff
  let (left, w) ← run (visitNext callbacks reenter call bytesToParse.length w.resizes) fuel
    { session := w }
  match left with
  | some exit => return .exit (exit, w)
  | none =>
      -- "Until message" was not found from already received whole messages.
      match w.erase bytesToParse.length with
      | (.normal, w) => do
          let (r, w) ← w.recvMoreData host fuel
          match r with
          | .error e => return .exit (.threw e, w)
          | .ok _ => return .again w
      | (exit, w) => return .exit (exit, w)

/-- Receive and visit events until given (object id, opcode)-pair. -/
def recvisClosureUntil : ℕ → UntilCall ω → Session σ ω → Option (Exit × Session σ ω)
  | 0, _, _ => none
  | fuel + 1, call, w =>
      run (tryAgain callbacks (recvisClosureUntil fuel) call host) fuel w

end Until

end Waylander
