import Waylander.Client.Ledger
import Waylander.Client.ObjectIds
import Waylander.Client.Stopping
import Waylander.Wire.Reencoding

/-!
# The program `list_registry_globals`

The program asks for the registry and for a callback, prints every global that the
server announces, and ends with the callback or with a fatal error.  What it prints
is compared here with what the server says in the wire format.

`std::exit` leaves the overload that calls it, and the program, like an exception
that nothing catches.
-/

namespace Waylander

namespace ListRegistryGlobals

open Goto

variable {σ : Type}

/-! ## The program -/

/-- The function objects in `ov`. -/
inductive Overload
  | global
  | fatalError
  deriving DecidableEq

/-- A line on the standard output. -/
inductive Line
  | text (s : String)
  | global (name version : BitVec 32) (interface : List Byte)
  | objectId (id : Wobject)
  | errorType (s : String)
  | desc (message : List Byte)
  deriving DecidableEq

/-- How the program ends. -/
inductive ProgramExit
  | returned
  /-- By `std::exit`. -/
  | exited (code : ℕ)
  | terminated (e : Exception)
  | fault (f : Fault)
  | undefined
  deriving DecidableEq

structure Result where
  exit : ProgramExit
  stdout : List Line
  sent : List Packet
  deriving DecidableEq

/-- `wl_display::request::get_registry` -/
def getRegistry (registry : Wobject) : Message where
  opcode := 1
  arguments := [.static (.wnewId registry)]

/-- `wl_display::request::sync` -/
def sync (callback : Wobject) : Message where
  opcode := 0
  arguments := [.static (.wnewId callback)]

/-- The opcode of `wl_registry::event::global`. -/
def globalOpcode : Wopcode := 0

def globalTypes : List ArgumentType :=
  [.static .wuint, .wstring, .static .wuint]

/-- The opcode of `wl_display::event::error`. -/
def errorOpcode : Wopcode := 0

def errorTypes : List ArgumentType :=
  [.static .wobject, .static .wuint, .wstring]

/-- The opcode of `wl_callback::event::done`. -/
def doneOpcode : Wopcode := 0

/-- The lambda `err_type`. -/
def errType (code : BitVec 32) : String :=
  if code = 0 then "invalid object"
  else if code = 1 then "invalid method"
  else if code = 2 then "no memory"
  else if code = 3 then "implementation"
  else "non-global error"

def errorLines (objectId : Wobject) (code : BitVec 32) (message : List Byte) : List Line :=
  [.text "Received global display object error event:", .objectId objectId,
    .errorType (errType code), .desc message]

/-- What the overloads print. -/
def printed (build : Build) : Invocation Overload → Except Fault (List Line)
  | .overload .global payload => do
      match ← interpertMessagePayload build payload globalTypes with
      | [.static (.wuint name), .wstring interface, .static (.wuint version)] =>
          return [.global name version interface]
      | _ => throw .noBranch
  | .overload .fatalError payload => do
      match ← interpertMessagePayload build payload errorTypes with
      | [.static (.wobject objectId), .static (.wuint code), .wstring message] =>
          return errorLines objectId code message
      | _ => throw .noBranch
  | .untilCallback _ => return []

/-- The overload for fatal errors exits. -/
def exits : Invocation Overload → Bool
  | .overload .fatalError _ => true
  | _ => false

def overloads (registry : Wobject) : Except Exception (MessageOverloadSet Overload) :=
  let (added, ov) := MessageOverloadSet.empty.addOverload registry globalOpcode .global
  match added with
  | .error e => .error e
  | .ok _ =>
      let (added, ov) := ov.addOverload globalDisplayObject errorOpcode .fatalError
      match added with
      | .error e => .error e
      | .ok _ => .ok ov

def ProgramExit.ofExit : Exit → ProgramExit
  | .normal => .returned
  | .threw .callbackError => .exited 1
  | .threw e => .terminated e
  | .undefined => .undefined

def sendingLine : Line :=
  .text "Sending requests get_registery and sync to global display object..."

def globalsLine : Line :=
  .text "Registry globals:"

def main (build : Build) (stale : ℕ → Byte) (host : Host σ) (sender : Sender σ) (server : σ)
    (fuel : ℕ) : Option Result :=
  let (registry, client) := reserveObjectId (ConnectedClient.connect server)
  let (syncCallback, client) := reserveObjectId client
  let registered := do
    let client ← registerRequest build stale globalDisplayObject (getRegistry registry) client
    registerRequest build stale globalDisplayObject (sync syncCallback) client
  match registered with
  | .error f => some ⟨.fault f, [], []⟩
  | .ok client =>
      let (flushed, o) := flushRegisteredRequests sender { client := client }
      match flushed with
      | .threw e => some ⟨.terminated e, [sendingLine], o.sent⟩
      | .fault f => some ⟨.fault f, [sendingLine], o.sent⟩
      | .returned =>
          match overloads registry with
          | .error e => some ⟨.terminated e, [sendingLine], o.sent⟩
          | .ok ov => do
              let call : UntilCall Overload :=
                { mos := ov
                  untilObjId := syncCallback
                  untilOpcode := doneOpcode
                  callback := false }
              let (exit, w) ← recvisClosureUntil (throwing exits) host fuel call
                { client := o.client }
              match (invocations w.trace).mapM (printed build) with
              | .error f => return ⟨.fault f, [sendingLine, globalsLine], o.sent⟩
              | .ok lines =>
                  return ⟨.ofExit exit, [sendingLine, globalsLine] ++ lines.flatten, o.sent⟩

/-! ## What the server says -/

/-- The bytes of both requests. -/
def requestBytes : List Byte :=
  [1, 0, 0, 0, 1, 0, 12, 0, 2, 0, 0, 0, 1, 0, 0, 0, 0, 0, 12, 0, 3, 0, 0, 0]

def IsGlobal (msg : ParsedMessage) : Prop :=
  msg.objectId = 2 ∧ msg.opcode = globalOpcode

def IsError (msg : ParsedMessage) : Prop :=
  msg.objectId = globalDisplayObject ∧ msg.opcode = errorOpcode

def IsDone (msg : ParsedMessage) : Prop :=
  msg.objectId = 3 ∧ msg.opcode = doneOpcode

instance (msg : ParsedMessage) : Decidable (IsGlobal msg) :=
  inferInstanceAs (Decidable (_ ∧ _))

instance (msg : ParsedMessage) : Decidable (IsError msg) :=
  inferInstanceAs (Decidable (_ ∧ _))

instance (msg : ParsedMessage) : Decidable (IsDone msg) :=
  inferInstanceAs (Decidable (_ ∧ _))

/-- The lines that a message should be printed as, if it is a well-formed one. -/
def announced (msg : ParsedMessage) : Option (List Line) :=
  if IsGlobal msg then
    match parseWirePayload globalTypes msg.arguments with
    | some [.word .wuint name, .string interface, .word .wuint version] =>
        some [.global name version interface]
    | _ => none
  else if IsError msg then
    match parseWirePayload errorTypes msg.arguments with
    | some [.word .wobject objectId, .word .wuint code, .string message] =>
        some (errorLines objectId code message)
    | _ => none
  else
    some []

/-! ## The steps of the program -/

theorem overloads_two :
    ∃ ov, overloads 2 = .ok ov ∧
      ov.overloads = [((globalDisplayObject, errorOpcode), .fatalError),
        ((2, globalOpcode), .global)] :=
  ⟨_, rfl, rfl⟩

/-- `recv_and_visit_events(ov).until<done_t>(sync_callback)` -/
def untilDone (ov : MessageOverloadSet Overload) : UntilCall Overload where
  mos := ov
  untilObjId := 3
  untilOpcode := doneOpcode
  callback := false

variable {ov : MessageOverloadSet Overload}

theorem overloadResolution_eq
    (hov : ov.overloads = [((globalDisplayObject, errorOpcode), .fatalError),
      ((2, globalOpcode), .global)]) (msg : ParsedMessage) :
    ov.overloadResolution msg.objectId msg.opcode =
      if IsError msg then some .fatalError else if IsGlobal msg then some .global else none := by
  have herrorKey : ((msg.objectId, msg.opcode) == (globalDisplayObject, errorOpcode)) =
      decide (IsError msg) := by
    rw [Bool.eq_iff_iff, decide_eq_true_iff, beq_iff_eq, Prod.mk.injEq, IsError]
  have hglobalKey : ((msg.objectId, msg.opcode) == (2, globalOpcode)) =
      decide (IsGlobal msg) := by
    rw [Bool.eq_iff_iff, decide_eq_true_iff, beq_iff_eq, Prod.mk.injEq, IsGlobal]
  rw [MessageOverloadSet.overloadResolution, hov, List.lookup_cons, List.lookup_cons,
    List.lookup_nil, herrorKey, hglobalKey]
  by_cases herror : IsError msg
  · rw [if_pos herror, decide_eq_true herror]
  · rw [if_neg herror, decide_eq_false herror]
    by_cases hglobal : IsGlobal msg
    · rw [if_pos hglobal, decide_eq_true hglobal]
    · rw [if_neg hglobal, decide_eq_false hglobal]

theorem invocation_eq
    (hov : ov.overloads = [((globalDisplayObject, errorOpcode), .fatalError),
      ((2, globalOpcode), .global)]) (msg : ParsedMessage) :
    (untilDone ov).invocation msg =
      if IsDone msg then none
      else if IsError msg then some (.overload .fatalError msg.arguments)
      else if IsGlobal msg then some (.overload .global msg.arguments)
      else none := by
  have hresolution := overloadResolution_eq hov msg
  have hhandler : (untilDone ov).handler msg =
      if IsDone msg then .noCallback
      else if IsError msg then .overload .fatalError
      else if IsGlobal msg then .overload .global
      else .skipped := by
    have hmatch : (untilDone ov).Matches msg ↔ IsDone msg := Iff.rfl
    rw [UntilCall.handler, show (untilDone ov).mos = ov from rfl, hresolution]
    by_cases hdone : IsDone msg
    · rw [if_pos (hmatch.mpr hdone), if_pos hdone]
      rfl
    · rw [if_neg (hmatch.not.mpr hdone), if_neg hdone]
      by_cases herror : IsError msg
      · rw [if_pos herror, if_pos herror]
      · rw [if_neg herror, if_neg herror]
        by_cases hglobal : IsGlobal msg
        · rw [if_pos hglobal, if_pos hglobal]
        · rw [if_neg hglobal, if_neg hglobal]
  rw [UntilCall.invocation, hhandler]
  split_ifs
  · rfl
  · rfl
  · rfl
  · rfl

theorem throwsOn_eq
    (hov : ov.overloads = [((globalDisplayObject, errorOpcode), .fatalError),
      ((2, globalOpcode), .global)]) (msg : ParsedMessage) :
    (untilDone ov).throwsOn exits msg = decide (IsError msg) := by
  have hapart : IsDone msg → ¬IsError msg := by
    rintro ⟨hdone, -⟩ ⟨herror, -⟩
    rw [hdone] at herror
    exact absurd herror (by decide)
  rw [UntilCall.throwsOn, invocation_eq hov]
  split_ifs with hdone herror hglobal
  · exact (decide_eq_false (hapart hdone)).symm
  · exact (decide_eq_true herror).symm
  · exact (decide_eq_false herror).symm
  · exact (decide_eq_false herror).symm

/-- The call ends with the callback or with an error. -/
theorem endsWith_iff
    (hov : ov.overloads = [((globalDisplayObject, errorOpcode), .fatalError),
      ((2, globalOpcode), .global)]) (msg : ParsedMessage) :
    (untilDone ov).EndsWith exits msg ↔ IsDone msg ∨ IsError msg := by
  rw [UntilCall.EndsWith, throwsOn_eq hov, decide_eq_true_iff]
  exact Iff.rfl

theorem printed_global {payload : List Byte} {name version : BitVec 32} {interface : List Byte}
    (h : parseWirePayload globalTypes payload =
      some [.word .wuint name, .string interface, .word .wuint version]) :
    printed .unchecked (.overload .global payload) = .ok [.global name version interface] := by
  rw [printed, interpertMessagePayload_of_notMem h (by simp)]
  rfl

theorem printed_fatalError {payload : List Byte} {objectId : Wobject} {code : BitVec 32}
    {message : List Byte}
    (h : parseWirePayload errorTypes payload =
      some [.word .wobject objectId, .word .wuint code, .string message]) :
    printed .unchecked (.overload .fatalError payload) =
      .ok (errorLines objectId code message) := by
  rw [printed, interpertMessagePayload_of_notMem h (by simp)]
  rfl

/-- What the overloads print is what the server announced. -/
theorem printed_of_announced
    (hov : ov.overloads = [((globalDisplayObject, errorOpcode), .fatalError),
      ((2, globalOpcode), .global)]) {msg : ParsedMessage} {lines : List Line}
    (h : announced msg = some lines) :
    match (untilDone ov).invocation msg with
    | none => lines = []
    | some invocation => printed .unchecked invocation = .ok lines := by
  have hdoneGlobal : IsDone msg → ¬IsGlobal msg := by
    rintro ⟨hdone, -⟩ ⟨hglobal, -⟩
    rw [hdone] at hglobal
    exact absurd hglobal (by decide)
  have hdoneError : IsDone msg → ¬IsError msg := by
    rintro ⟨hdone, -⟩ ⟨herror, -⟩
    rw [hdone] at herror
    exact absurd herror (by decide)
  have hglobalError : IsGlobal msg → ¬IsError msg := by
    rintro ⟨hglobal, -⟩ ⟨herror, -⟩
    rw [hglobal] at herror
    exact absurd herror (by decide)
  rw [invocation_eq hov]
  rw [announced] at h
  by_cases hdone : IsDone msg
  · rw [if_neg (hdoneGlobal hdone), if_neg (hdoneError hdone)] at h
    rw [if_pos hdone]
    exact (Option.some.inj h).symm
  · rw [if_neg hdone]
    by_cases hglobal : IsGlobal msg
    · rw [if_neg (hglobalError hglobal), if_pos hglobal]
      rw [if_pos hglobal] at h
      split at h
      · rename_i hparse
        obtain rfl := Option.some.inj h
        exact printed_global hparse
      · cases h
    · rw [if_neg hglobal] at h
      by_cases herror : IsError msg
      · rw [if_pos herror]
        rw [if_pos herror] at h
        split at h
        · rename_i hparse
          obtain rfl := Option.some.inj h
          exact printed_fatalError hparse
        · cases h
      · rw [if_neg herror, if_neg hglobal]
        rw [if_neg herror] at h
        exact (Option.some.inj h).symm

theorem mapM_printed
    (hov : ov.overloads = [((globalDisplayObject, errorOpcode), .fatalError),
      ((2, globalOpcode), .global)]) {msgs : List ParsedMessage} {lines : List (List Line)}
    (h : msgs.mapM announced = some lines) :
    ∃ texts, (msgs.filterMap (untilDone ov).invocation).mapM (printed .unchecked) = .ok texts ∧
      texts.flatten = lines.flatten := by
  induction msgs generalizing lines with
  | nil =>
      obtain rfl : [] = lines := by simpa using h
      exact ⟨[], rfl, rfl⟩
  | cons msg msgs ih =>
      rw [List.mapM_cons] at h
      obtain ⟨first, hfirst, h⟩ := Option.bind_eq_some_iff.mp h
      obtain ⟨rest, hrest, h⟩ := Option.bind_eq_some_iff.mp h
      obtain rfl : first :: rest = lines := Option.some.inj h
      obtain ⟨texts, htexts, hflatten⟩ := ih hrest
      have hprinted := printed_of_announced hov hfirst
      rw [List.filterMap_cons]
      cases hinvocation : (untilDone ov).invocation msg with
      | none =>
          rw [hinvocation] at hprinted
          obtain rfl : first = [] := hprinted
          exact ⟨texts, htexts, hflatten⟩
      | some invocation =>
          rw [hinvocation] at hprinted
          refine ⟨first :: texts, ?_, ?_⟩
          · rw [List.mapM_cons, hprinted, htexts]
            rfl
          · rw [List.flatten_cons, List.flatten_cons, hflatten]

/-- The registered requests. -/
theorem registered_eq (stale : ℕ → Byte) (client : ConnectedClient σ)
    (hbuff : client.requestBuff = {}) :
    (do
      let client ← registerRequest .unchecked stale globalDisplayObject (getRegistry 2) client
      registerRequest .unchecked stale globalDisplayObject (sync 3) client) =
      .ok { client with requestBuff := { buff := requestBytes, fdBuff := [] } } := by
  have hregistry : append .unchecked stale {} globalDisplayObject (getRegistry 2) =
      .ok { buff := requestBytes.take 12, fdBuff := [] } := by
    rw [append_unchecked stale (by simp [Message.AssertionsPass, getRegistry, Argument.lengthWord])]
    rfl
  have hsync : append .unchecked stale { buff := requestBytes.take 12, fdBuff := [] }
      globalDisplayObject (sync 3) = .ok { buff := requestBytes, fdBuff := [] } := by
    rw [append_unchecked stale (by simp [Message.AssertionsPass, sync, Argument.lengthWord])]
    rfl
  rw [registerRequest, hbuff, hregistry]
  change (do
    let requestBuff ← append .unchecked stale { buff := requestBytes.take 12, fdBuff := [] }
      globalDisplayObject (sync 3)
    return { client with requestBuff := requestBuff }) = _
  rw [hsync]
  rfl

theorem flush_eq {sender : Sender σ} {client : ConnectedClient σ} {server' : σ}
    (hbuff : client.requestBuff = { buff := requestBytes, fdBuff := [] })
    (hwrite : sender.write client.serverSock.server requestBytes = (.ok (), server')) :
    flushRegisteredRequests sender { client := client } =
      (.returned,
        { client :=
            { client with
              requestBuff := {}
              serverSock := { client.serverSock with server := server' } }
          sent := [{ bytes := requestBytes }] }) := by
  obtain ⟨serverSock, nextNewId, requestBuff, recvBuff⟩ := client
  obtain rfl : requestBuff = { buff := requestBytes, fdBuff := [] } := hbuff
  have hsent : Outgoing.write sender requestBytes
      { client := ⟨serverSock, nextNewId, {}, recvBuff⟩ } =
        (.returned, Outgoing.put { client := ⟨serverSock, nextNewId, {}, recvBuff⟩ } server'
          [{ bytes := requestBytes }]) := by
    rw [Outgoing.write, hwrite]
  exact hsent

/-- The session after the flush. -/
def waiting (server : σ) : Session σ Overload where
  client := { ConnectedClient.connect server with nextNewId := 4 }

/-- What the program ends with after the call of `until`. -/
def ended (r : Exit × Session σ Overload) : Result :=
  match (invocations r.2.trace).mapM (printed .unchecked) with
  | .error f => ⟨.fault f, [sendingLine, globalsLine], [{ bytes := requestBytes }]⟩
  | .ok lines =>
      ⟨.ofExit r.1, [sendingLine, globalsLine] ++ lines.flatten, [{ bytes := requestBytes }]⟩

theorem main_eq (stale : ℕ → Byte) {host : Host σ} {sender : Sender σ} {server server' : σ}
    (hwrite : sender.write server requestBytes = (.ok (), server'))
    (hoverloads : overloads 2 = .ok ov) (fuel : ℕ) :
    main .unchecked stale host sender server fuel =
      (recvisClosureUntil (throwing exits) host fuel (untilDone ov) (waiting server')).bind
        fun r => some (ended r) := by
  have hregistered := registered_eq stale
    (⟨{ server := server, received := [] }, 4, {}, []⟩ : ConnectedClient σ) rfl
  have hflush : flushRegisteredRequests sender
      { client := ⟨{ server := server, received := [] }, 4, ⟨requestBytes, []⟩, []⟩ } = _ :=
    flush_eq rfl hwrite
  rw [main]
  dsimp only [reserveObjectId, ConnectedClient.connect] at hregistered hflush ⊢
  rw [show (2 + 1 : BitVec 32) = 3 from rfl, show (3 + 1 : BitVec 32) = 4 from rfl,
    hregistered]
  dsimp only
  rw [hflush]
  dsimp only
  rw [hoverloads]
  refine congrArg (Option.bind _) (funext fun r => ?_)
  rw [ended]
  cases (invocations r.2.trace).mapM (printed .unchecked) with
  | error f => rfl
  | ok lines => rfl

section Printing

variable {S : ServerStream σ} {pre post : List (List Byte)} {f : List Byte}

/-- If the server answers with well-formed messages up to the callback or a fatal error, the
program sends both requests at once, prints what these messages announce, and nothing of what
comes behind them.  It fails if the last one is an error. -/
theorem main_prints (stale : ℕ → Byte) {sender : Sender σ} {server server' : σ}
    (hwrite : sender.write server requestBytes = (.ok (), server'))
    (hserver : S.pending server' = (pre ++ f :: post).flatten)
    (hfs : ∀ g ∈ pre ++ f :: post, wire.IsFrame g)
    (hwords : ∀ g ∈ pre ++ f :: post, 4 ∣ g.length)
    (hpre : ∀ g ∈ pre, ¬(IsDone (.ofFrame g) ∨ IsError (.ofFrame g)))
    (hlast : IsDone (.ofFrame f) ∨ IsError (.ofFrame f)) {lines : List (List Line)}
    (hlines : ((pre ++ [f]).map .ofFrame).mapM announced = some lines) :
    Yields (fun fuel => main .unchecked stale S.toHost sender server fuel)
      { exit := if IsError (.ofFrame f) then .exited 1 else .returned
        stdout := [sendingLine, globalsLine] ++ lines.flatten
        sent := [{ bytes := requestBytes }] } := by
  obtain ⟨ov, hoverloads, hov⟩ := overloads_two
  have hboundary : AtBoundary S (pre ++ f :: post) [] (waiting server').client []
      (pre ++ f :: post) := by
    have hconnect : AtBoundary S (pre ++ f :: post) [] (.connect server') [] _ :=
      atBoundary_connect (by rw [hserver, List.append_nil])
    exact ⟨hconnect.frames, hconnect.received, hconnect.unconsumed⟩
  obtain ⟨exit, w, hyields, hhanded⟩ := recvisClosureUntil_endsWith hfs hwords
    (fun g hg => (endsWith_iff hov (.ofFrame g)).not.mpr (hpre g hg))
    ((endsWith_iff hov (.ofFrame f)).mpr hlast) hboundary
  have hexit : ProgramExit.ofExit exit =
      if IsError (.ofFrame f) then .exited 1 else .returned := by
    obtain rfl := hhanded.exit
    rw [UntilCall.exitWith, throwsOn_eq hov]
    by_cases herror : IsError (.ofFrame f)
    · rw [if_pos herror, decide_eq_true herror]
      rfl
    · rw [if_neg herror, decide_eq_false herror]
      rfl
  obtain ⟨events, htrace, -, hinvocations⟩ := hhanded.hears
  obtain ⟨texts, htexts, hflatten⟩ := mapM_printed hov hlines
  have hprinted : (invocations w.trace).mapM (printed .unchecked) = .ok texts := by
    rw [htrace, invocations_append, hinvocations]
    exact htexts
  have hended : ended (exit, w) =
      { exit := if IsError (.ofFrame f) then .exited 1 else .returned
        stdout := [sendingLine, globalsLine] ++ lines.flatten
        sent := [{ bytes := requestBytes }] } := by
    rw [ended, hprinted, ← hflatten, ← hexit]
  have hmain := hyields.bind_some (g := fun r => some (ended r)) (congrArg some hended)
  simpa only [main_eq stale hwrite hoverloads] using hmain

/-- One global is announced before the callback. -/
theorem main_prints_global :
    let g : List Byte :=
      [2, 0, 0, 0, 0, 0, 24, 0, 1, 0, 0, 0, 3, 0, 0, 0, 119, 108, 0, 0, 4, 0, 0, 0]
    let f : List Byte := [3, 0, 0, 0, 0, 0, 12, 0, 0, 0, 0, 0]
    Yields
      (fun fuel => main .unchecked (fun _ => 0) (boundedServer 99).toHost takingSender
        (g ++ f) fuel)
      { exit := .returned
        stdout := [sendingLine, globalsLine, .global 1 4 [119, 108]]
        sent := [{ bytes := requestBytes }] } := by
  intro g f
  have hwrite : takingSender.write (g ++ f) requestBytes = (.ok (), g ++ f) := rfl
  have hserver : (boundedServer 99).pending (g ++ f) = ([g] ++ f :: []).flatten := rfl
  have hlines : (([g] ++ [f]).map .ofFrame).mapM announced =
      some [[.global 1 4 [119, 108]], []] := by decide
  exact main_prints (fun _ => 0) hwrite hserver (by decide) (by decide) (by decide) (by decide)
    hlines

end Printing

end ListRegistryGlobals

end Waylander
