import Waylander.Wire.Subscripts

/-!
# Exceptions inside `append`

`append` makes `buff_` longer for the header before it looks at the arguments,
and then grows one of its two containers for each argument, before it writes
anything there.  A growth that throws leaves its own container as it was, and no
code runs between it and the caller of `append`: nothing takes back what the
call has added so far.

Which growths throw is given by a function of their number in the call: growth
0 is the room for the header and growth `i + 1` the one of argument `i`.
-/

namespace Waylander

open LittleEndian Buffer Fallible

/-- What `resize` and `push_back` throw. -/
inductive GrowthException where
  | badAlloc
  | lengthError
  deriving DecidableEq

section Throwing

variable (build : Build) (stale : ℕ → Byte) (growth : ℕ → Option GrowthException)

/-- The calls of `write_element_32aligned`, the first of which makes growth `n`.
Each overload grows its container once, and first. -/
def writeArguments : ℕ → List Argument → AppendLocals →
    Except Fault (Option GrowthException × AppendLocals)
  | _, [], l => return (none, l)
  | n, arg :: args, l =>
      match growth n with
      | some e => return (some e, l)
      | none => do
          let l ← writeElement32aligned build stale l arg
          writeArguments (n + 1) args l

/-- The end of `append`. -/
def writeHeader (obj : Wobject) (msg : Message) (beginOfHeaderIndex : ℕ) (l : AppendLocals) :
    Except Fault MessageBuffer := do
  let narrowedMsgSize : WmessageSize := BitVec.ofNat 16 l.msgTotalSize
  let header : MessageHeader :=
    { objectId := obj, opcode := msg.opcode, size := narrowedMsgSize }
  let buff ← memcpyInto build l.buffer.buff beginOfHeaderIndex header.bytes
  return { l.buffer with buff := buff }

/-- `append` with growths that may throw: the exception, if there is one, and
the buffer that the call leaves. -/
def appendThrowing (buf : MessageBuffer) (obj : Wobject) (msg : Message) :
    Except Fault (Option GrowthException × MessageBuffer) :=
  let beginOfHeaderIndex := buf.buff.length
  match growth 0 with
  | some e => return (some e, buf)
  | none => do
      let (thrown, l) ← writeArguments build stale growth 1 msg.arguments
        { buffer :=
            { buf with buff := resize stale buf.buff (buf.buff.length + messageHeaderSize) }
          msgTotalSize := messageHeaderSize }
      match thrown with
      | some e => return (some e, l.buffer)
      | none => do
          let buf' ← writeHeader build obj msg beginOfHeaderIndex l
          return (none, buf')

/-- From growth `start` on, `k` growths succeed and the next one throws. -/
def FirstThrow (start k : ℕ) (e : GrowthException) : Prop :=
  growth (start + k) = some e ∧ ∀ i < k, growth (start + i) = none

/-- The arguments that `append` has written before growth `n`. -/
def Message.written (msg : Message) (n : ℕ) : List Argument :=
  msg.arguments.take (n - 1)

/-- The buffer right before growth `n`. -/
def beforeGrowth (buf : MessageBuffer) (msg : Message) : ℕ → MessageBuffer
  | 0 => buf
  | n + 1 =>
      { buff := buf.buff ++ (fresh stale buf.buff.length messageHeaderSize ++
          encodeArguments stale (buf.buff.length + messageHeaderSize) (msg.written (n + 1)))
        fdBuff := buf.fdBuff ++ (msg.written (n + 1)).flatMap Argument.fds }

/-! ## No growth throws -/

theorem writeArguments_none (hgrowth : ∀ i, growth i = none) (n : ℕ) (args : List Argument)
    (l : AppendLocals) :
    writeArguments build stale growth n args l =
      (args.foldlM (writeElement32aligned build stale) l).map (none, ·) := by
  induction args generalizing n l with
  | nil => rfl
  | cons arg args ih =>
      rw [writeArguments, hgrowth, List.foldlM_cons]
      cases hhead : writeElement32aligned build stale l arg with
      | error e => rfl
      | ok l' => exact ih (n + 1) l'

/-- Without exceptions this is `append`. -/
theorem appendThrowing_none (hgrowth : ∀ i, growth i = none) (buf : MessageBuffer)
    (obj : Wobject) (msg : Message) :
    appendThrowing build stale growth buf obj msg =
      (append build stale buf obj msg).map (none, ·) := by
  have happend : append build stale buf obj msg =
      (do
        let l ← appendArguments build stale buf msg
        writeHeader build obj msg buf.buff.length l) := rfl
  rw [happend, appendArguments, appendThrowing]
  simp only [hgrowth, writeArguments_none build stale growth hgrowth]
  cases msg.arguments.foldlM (writeElement32aligned build stale)
      { buffer :=
          { buf with buff := resize stale buf.buff (buf.buff.length + messageHeaderSize) }
        msgTotalSize := messageHeaderSize } with
  | error e => rfl
  | ok l =>
      simp only [Except.map, bind, Except.bind]
      cases writeHeader build obj msg buf.buff.length l with
      | error e => rfl
      | ok buf' => rfl

/-! ## The first growth that throws -/

theorem firstThrow_zero {start : ℕ} {e : GrowthException} :
    FirstThrow growth start 0 e ↔ growth start = some e := by
  simp [FirstThrow]

theorem firstThrow_succ {start k : ℕ} {e : GrowthException} :
    FirstThrow growth start (k + 1) e ↔
      growth start = none ∧ FirstThrow growth (start + 1) k e := by
  have hshift : ∀ i, start + (i + 1) = start + 1 + i := fun i => by
    rw [Nat.add_right_comm, Nat.add_assoc]
  constructor
  · rintro ⟨he, hearlier⟩
    refine ⟨hearlier 0 (Nat.succ_pos k), hshift k ▸ he, ?_⟩
    intro i hi
    rw [← hshift]
    exact hearlier (i + 1) (Nat.succ_lt_succ hi)
  · rintro ⟨hfirst, he, hearlier⟩
    refine ⟨hshift k ▸ he, ?_⟩
    intro i hi
    cases i with
    | zero => exact hfirst
    | succ i =>
        rw [hshift]
        exact hearlier i (Nat.lt_of_succ_lt_succ hi)

theorem writeArguments_thrown_iff {n : ℕ} {args : List Argument} {l l' : AppendLocals}
    {e : GrowthException} :
    writeArguments build stale growth n args l = .ok (some e, l') ↔
      ∃ k < args.length, FirstThrow growth n k e ∧
        (args.take k).foldlM (writeElement32aligned build stale) l = .ok l' := by
  induction args generalizing n l with
  | nil => simp [writeArguments]
  | cons arg args ih =>
      rw [writeArguments]
      constructor
      · intro h
        cases hn : growth n with
        | some e' =>
            rw [hn] at h
            obtain ⟨he, rfl⟩ := Prod.mk.inj (pure_eq_ok_iff.mp h)
            exact ⟨0, Nat.succ_pos _, (firstThrow_zero growth).mpr (hn.trans he), rfl⟩
        | none =>
            rw [hn] at h
            obtain ⟨m, hhead, htail⟩ := bind_eq_ok_iff.mp h
            obtain ⟨k, hk, hthrow, hwritten⟩ := ih.mp htail
            refine ⟨k + 1, Nat.succ_lt_succ hk, (firstThrow_succ growth).mpr ⟨hn, hthrow⟩, ?_⟩
            rw [List.take_succ_cons, List.foldlM_cons]
            exact bind_eq_ok_iff.mpr ⟨m, hhead, hwritten⟩
      · rintro ⟨k, hk, hthrow, hwritten⟩
        cases k with
        | zero =>
            rw [(firstThrow_zero growth).mp hthrow]
            obtain rfl := Except.ok.inj hwritten
            rfl
        | succ k =>
            obtain ⟨hn, hthrow⟩ := (firstThrow_succ growth).mp hthrow
            rw [List.take_succ_cons, List.foldlM_cons] at hwritten
            obtain ⟨m, hhead, hwritten⟩ := bind_eq_ok_iff.mp hwritten
            rw [hn]
            exact bind_eq_ok_iff.mpr
              ⟨m, hhead, ih.mpr ⟨k, Nat.lt_of_succ_lt_succ hk, hthrow, hwritten⟩⟩

/-- The calls that an exception leaves are those in which some growth throws,
nothing aborts before it, and the queues are as right before that growth. -/
theorem appendThrowing_thrown_iff {buf buf' : MessageBuffer} {obj : Wobject} {msg : Message}
    {e : GrowthException} :
    appendThrowing build stale growth buf obj msg = .ok (some e, buf') ↔
      ∃ n ≤ msg.arguments.length, FirstThrow growth 0 n e ∧
        (∀ arg ∈ msg.written n, arg.FitsLengthWord) ∧ build.Addresses (msg.written n) ∧
        buf' = beforeGrowth stale buf msg n := by
  rw [appendThrowing]
  constructor
  · intro h
    cases hroom : growth 0 with
    | some e' =>
        rw [hroom] at h
        obtain ⟨he, rfl⟩ := Prod.mk.inj (pure_eq_ok_iff.mp h)
        exact ⟨0, Nat.zero_le _, (firstThrow_zero growth).mpr (hroom.trans he),
          by simp [Message.written], by simp [Message.written, Build.Addresses], rfl⟩
    | none =>
        rw [hroom] at h
        obtain ⟨⟨thrown, l⟩, hargs, hl⟩ := bind_eq_ok_iff.mp h
        cases thrown with
        | none =>
            obtain ⟨buf'', -, hreturn⟩ := bind_eq_ok_iff.mp hl
            cases hreturn
        | some e' =>
            obtain ⟨he, rfl⟩ := Prod.mk.inj (pure_eq_ok_iff.mp hl)
            obtain rfl := Option.some.inj he
            obtain ⟨k, hk, hthrow, hwritten⟩ :=
              (writeArguments_thrown_iff build stale growth).mp hargs
            obtain ⟨hfits, hne, rfl⟩ := (foldlM_eq_ok_iff build stale).mp hwritten
            refine ⟨k + 1, hk, (firstThrow_succ growth).mpr ⟨hroom, hthrow⟩, hfits, hne, ?_⟩
            simp [beforeGrowth, Message.written, resize_add]
  · rintro ⟨n, hn, hthrow, hfits, hne, rfl⟩
    cases n with
    | zero =>
        rw [(firstThrow_zero growth).mp hthrow]
        rfl
    | succ k =>
        obtain ⟨hroom, hthrow⟩ := (firstThrow_succ growth).mp hthrow
        have hwritten := foldlM_writeElement32aligned build stale hfits hne
          { buffer :=
              { buf with buff := resize stale buf.buff (buf.buff.length + messageHeaderSize) }
            msgTotalSize := messageHeaderSize }
        have hargs := (writeArguments_thrown_iff build stale growth).mpr
          ⟨k, hn, hthrow, hwritten⟩
        rw [hroom]
        refine bind_eq_ok_iff.mpr ⟨_, hargs, ?_⟩
        simp [beforeGrowth, Message.written, resize_add]

/-- Only the growth that makes the room for the header leaves nothing behind. -/
theorem beforeGrowth_eq_iff (buf : MessageBuffer) (msg : Message) (n : ℕ) :
    beforeGrowth stale buf msg n = buf ↔ n = 0 := by
  cases n with
  | zero => exact iff_of_true rfl rfl
  | succ n =>
      have hlength : (beforeGrowth stale buf msg (n + 1)).buff.length =
          buf.buff.length + (messageHeaderSize + argumentsSize (msg.written (n + 1))) := by
        simp [beforeGrowth]
      apply iff_of_false
      · intro heq
        rw [heq] at hlength
        have hpos : 0 < messageHeaderSize := by decide
        omega
      · exact Nat.succ_ne_zero n

theorem prefix_beforeGrowth (buf : MessageBuffer) (msg : Message) (n : ℕ) :
    buf.buff <+: (beforeGrowth stale buf msg n).buff ∧
      buf.fdBuff <+: (beforeGrowth stale buf msg n).fdBuff := by
  cases n with
  | zero => exact ⟨List.prefix_rfl, List.prefix_rfl⟩
  | succ n => exact ⟨List.prefix_append _ _, List.prefix_append _ _⟩

/-- What `append` leaves when a growth throws: all that was queued, and behind it
the room for the header and every argument before the one whose growth threw.
The queues are as they were exactly if the growth for the header threw. -/
theorem appendThrowing_thrown {buf buf' : MessageBuffer} {obj : Wobject} {msg : Message}
    {e : GrowthException}
    (h : appendThrowing build stale growth buf obj msg = .ok (some e, buf')) :
    (∃ n ≤ msg.arguments.length, FirstThrow growth 0 n e ∧
        buf' = beforeGrowth stale buf msg n) ∧
      buf.buff <+: buf'.buff ∧ buf.fdBuff <+: buf'.fdBuff ∧
      (buf' = buf ↔ growth 0 = some e) := by
  obtain ⟨n, hn, hthrow, -, -, rfl⟩ := (appendThrowing_thrown_iff build stale growth).mp h
  obtain ⟨hbytes, hfds⟩ := prefix_beforeGrowth stale buf msg n
  refine ⟨⟨n, hn, hthrow, rfl⟩, hbytes, hfds, ?_⟩
  rw [beforeGrowth_eq_iff]
  cases n with
  | zero => exact iff_of_true rfl ((firstThrow_zero growth).mp hthrow)
  | succ k =>
      have hroom := ((firstThrow_succ growth).mp hthrow).1
      simp [hroom]

end Throwing

/-- The second growth for a file descriptor and a word behind it cannot be
allocated. -/
def secondArgumentThrows : ℕ → Option GrowthException := fun n =>
  if n = 2 then some .badAlloc else none

theorem appendThrowing_thrown_wfd :
    (∃ n ≤ 2, FirstThrow secondArgumentThrows 0 n .badAlloc ∧
        { buff := List.replicate 8 0, fdBuff := [⟨3⟩] } =
          beforeGrowth (fun _ => 0) {} ⟨0, [.wfd ⟨3⟩, .static (.wuint 7)]⟩ n) ∧
      [] <+: List.replicate 8 (0 : Byte) ∧ [] <+: [(⟨3⟩ : Wfd)] ∧
      (({ buff := List.replicate 8 0, fdBuff := [⟨3⟩] } : MessageBuffer) = {} ↔
        secondArgumentThrows 0 = some .badAlloc) :=
  appendThrowing_thrown .unchecked (fun _ => 0) secondArgumentThrows (by decide : appendThrowing
    .unchecked (fun _ => 0) secondArgumentThrows {} 1 ⟨0, [.wfd ⟨3⟩, .static (.wuint 7)]⟩ =
      .ok (some .badAlloc, { buff := List.replicate 8 0, fdBuff := [⟨3⟩] }))

/-- A flush then sends eight bytes that are no header and a file descriptor of no
message. -/
theorem appendThrowing_leaves_fd :
    ∃ buf', appendThrowing .unchecked (fun _ => 0) secondArgumentThrows {} 1
        ⟨0, [.wfd ⟨3⟩, .static (.wuint 7)]⟩ = .ok (some .badAlloc, buf') ∧
      buf' ≠ {} ∧ (releaseData buf').1 = List.replicate 8 0 ∧ (releaseFds buf').1 = [⟨3⟩] ∧
      sizeField (releaseData buf').1 = 0 :=
  ⟨{ buff := List.replicate 8 0, fdBuff := [⟨3⟩] }, by decide, by decide, rfl, rfl, by decide⟩

end Waylander
