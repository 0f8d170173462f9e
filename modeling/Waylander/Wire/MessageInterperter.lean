import Waylander.Wire.MessageBuffer

/-!
# Interpretation of payloads

`interpert_message_payload` reads the arguments of a message type one after
another from a payload.  A string or an array is a view into the payload, given
here by the bytes it views; a view that leaves the payload is a fault.
-/

namespace Waylander

open LittleEndian

variable (build : Build) (payload : List Byte)

/-- The `n` bytes of the payload that a view of them beginning at `i` sees. -/
def viewOf (i n : ℕ) : Except Fault (List Byte) :=
  if i + n ≤ payload.length then .ok ((payload.drop i).take n) else .error .outside

/-- The `Wstring` branch of `read_element_32aligned`: the string and the new
`bytes_read`. -/
def readWstring (bytesRead : ℕ) : Except Fault (List Byte × ℕ) := do
  let strSize := ofBytes (← memcpyFrom build payload bytesRead 4)
  if strSize = 0 then
    -- null-string
    return ([], bytesRead)
  else
    subscript build payload.length (bytesRead + 4)
    let unpaddedTotalSize := 4 + strSize
    let paddedTotalSize := unpaddedTotalSize + roundUptoMultipleOf 4 unpaddedTotalSize
    let str ← viewOf payload (bytesRead + 4) (strSize - 1)
    return (str, bytesRead + paddedTotalSize)

/-- The `Warray` branch. -/
def readWarray (bytesRead : ℕ) : Except Fault (List Byte × ℕ) := do
  let arraySize := ofBytes (← memcpyFrom build payload bytesRead 4)
  subscript build payload.length (bytesRead + 4)
  let unpaddedTotalSize := 4 + arraySize
  let paddedTotalSize := unpaddedTotalSize + roundUptoMultipleOf 4 unpaddedTotalSize
  let arr ← viewOf payload (bytesRead + 4) arraySize
  return (arr, bytesRead + paddedTotalSize)

/-- The branch for a `static_message_argument`. -/
def readStatic (t : StaticType) (bytesRead : ℕ) : Except Fault (StaticArgument × ℕ) := do
  let pad := roundUptoMultipleOf 4 4
  let elementSize := 4 + pad
  let elem ← memcpyFrom build payload bytesRead 4
  return (t.ofWord (BitVec.ofNat 32 (ofBytes elem)), bytesRead + elementSize)

/-- The argument at offset `bytesRead` and the offset behind it. -/
def readElement32aligned (bytesRead : ℕ) : ArgumentType → Except Fault (Argument × ℕ)
  | .wstring => do
      let (str, next) ← readWstring build payload bytesRead
      return (.wstring str, next)
  | .warray => do
      let (arr, next) ← readWarray build payload bytesRead
      return (.warray arr, next)
  | .static t => do
      let (elem, next) ← readStatic build payload t bytesRead
      return (.static elem, next)
  | .wfd => throw .noBranch

/-- The arguments from offset `bytesRead` on. -/
def readElements : ℕ → List ArgumentType → Except Fault (List Argument)
  | _, [] => return []
  | bytesRead, t :: types => do
      let (arg, next) ← readElement32aligned build payload bytesRead t
      let args ← readElements next types
      return arg :: args

def interpertMessagePayload (types : List ArgumentType) : Except Fault (List Argument) :=
  readElements build payload 0 types

/-! ## Reading one argument behind a given prefix -/

section Reading

variable {payload}

theorem viewOf_append (left mid right : List Byte) :
    viewOf (left ++ (mid ++ right)) left.length mid.length = .ok mid := by
  simp [viewOf]

theorem memcpyFrom_toBytes (left right : List Byte) {n v : ℕ} (hv : v < 256 ^ n)
    (hn : 0 < n) :
    ∃ bytes, memcpyFrom build (left ++ (toBytes n v ++ right)) left.length n =
      .ok bytes ∧ ofBytes bytes = v := by
  refine ⟨_, memcpyFrom_ok ?_ (by simp), uintAt_toBytes left right hv⟩
  intro _
  simp only [List.length_append, toBytes_length]
  omega

theorem readElement32aligned_static (left right : List Byte) (t : StaticType)
    (w : BitVec 32) :
    readElement32aligned build (left ++ (toBytes 4 w.toNat ++ right)) left.length
        (.static t) =
      .ok (.static (t.ofWord w), left.length + 4) := by
  obtain ⟨bytes, hcopy, hvalue⟩ :=
    memcpyFrom_toBytes build left right (n := 4) w.isLt (by decide)
  simp [readElement32aligned, readStatic, hcopy, hvalue, roundUptoMultipleOf, bind,
    Except.bind, pure, Except.pure]

theorem readElement32aligned_null (left right : List Byte) :
    readElement32aligned build (left ++ (toBytes 4 0 ++ right)) left.length .wstring =
      .ok (.wstring [], left.length) := by
  obtain ⟨bytes, hcopy, hvalue⟩ :=
    memcpyFrom_toBytes build left right (n := 4) (v := 0) (by decide) (by decide)
  simp [readElement32aligned, readWstring, hcopy, hvalue, bind, Except.bind, pure,
    Except.pure]

theorem readElement32aligned_wstring (left right : List Byte) {str : List Byte}
    (h : str.length + 1 < 2 ^ 32) (nul : Byte) {pad : List Byte}
    (hpad : pad.length = roundUptoMultipleOf 4 (4 + (str.length + 1))) :
    readElement32aligned build
        (left ++ (toBytes 4 (str.length + 1) ++ (str ++ (nul :: pad) ++ right)))
        left.length .wstring =
      .ok (.wstring str, left.length + (4 + (str.length + 1) + pad.length)) := by
  set payload := left ++ (toBytes 4 (str.length + 1) ++ (str ++ (nul :: pad) ++ right))
    with hpayload
  obtain ⟨bytes, hcopy, hvalue⟩ :=
    memcpyFrom_toBytes build left (str ++ (nul :: pad) ++ right) (n := 4) h (by decide)
  have hsub : subscript build payload.length (left.length + 4) = .ok () := by
    apply subscript_ok
    intro _
    simp only [hpayload, List.length_append, List.length_cons, toBytes_length]
    omega
  have hview : viewOf payload (left.length + 4) str.length = .ok str := by
    have hview :=
      viewOf_append (left ++ toBytes 4 (str.length + 1)) str (nul :: pad ++ right)
    simpa [hpayload] using hview
  rw [← hpayload] at hcopy
  simp [readElement32aligned, readWstring, hcopy, hvalue, hsub, hview, hpad, bind,
    Except.bind, pure, Except.pure]

/-- The bytes of an array are indexed also if there are none. -/
theorem readElement32aligned_warray (left right : List Byte) {arr : List Byte}
    (h : arr.length < 2 ^ 32) {pad : List Byte}
    (hpad : pad.length = roundUptoMultipleOf 4 (4 + arr.length))
    (hbehind : build.boundsChecked = true → arr ++ right ≠ []) :
    readElement32aligned build
        (left ++ (toBytes 4 arr.length ++ (arr ++ pad ++ right))) left.length .warray =
      .ok (.warray arr, left.length + (4 + arr.length + pad.length)) := by
  set payload := left ++ (toBytes 4 arr.length ++ (arr ++ pad ++ right)) with hpayload
  obtain ⟨bytes, hcopy, hvalue⟩ :=
    memcpyFrom_toBytes build left (arr ++ pad ++ right) (n := 4) h (by decide)
  have hsub : subscript build payload.length (left.length + 4) = .ok () := by
    apply subscript_ok
    intro hchecked
    have hpos := List.length_pos_of_ne_nil (hbehind hchecked)
    simp only [hpayload, List.length_append, toBytes_length] at hpos ⊢
    omega
  have hview : viewOf payload (left.length + 4) arr.length = .ok arr := by
    have hview := viewOf_append (left ++ toBytes 4 arr.length) arr (pad ++ right)
    simpa [hpayload] using hview
  rw [← hpayload] at hcopy
  simp [readElement32aligned, readWarray, hcopy, hvalue, hsub, hview, hpad, bind,
    Except.bind, pure, Except.pure]

end Reading

end Waylander
