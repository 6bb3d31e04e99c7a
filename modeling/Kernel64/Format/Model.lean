import Kernel64.Format.Untoa

/-!
# Formatted output

A model of `vsinkprintf.c` and of `vsnprintf` of `stdio.c`. A cursor into the format is the list of
the characters that are left, and `advance` faults when a cursor that is still to be read would
leave the string behind its NUL. What a run does to its sink is the list of the writes it makes;
a `va_list` is the sequence of the 64-bit words that `va_arg` takes.

`format_decode` returns a distance as an `int`, and the caller moves its cursor by it, so the
cursor of `vsinkprintf` is a number, and every access through it is checked.
-/

namespace Kernel64

namespace Format

/-- The conversion of a distance to `int`. -/
def toInt32 (n : ℕ) : ℤ := (BitVec.ofNat 32 n).toInt

/-! ### Format specifications -/

/-- `enum format_type` -/
inductive FormatType where
  | none
  | char
  | str
  | percent
  | ptr
  | intmax
  | size
  | ptrdiff
  | llong
  | long
  | int
  | short
  | byte
  | invalid
  deriving DecidableEq, Repr

/-- The bits of `enum format_flag` that are used. -/
structure FormatFlags where
  ffSigned : Bool
  ffSign : Bool
  ffPrefix : Bool
  deriving DecidableEq, Repr

/-- No flag set. -/
def FormatFlags.zero : FormatFlags := ⟨false, false, false⟩

/-- `struct format_spec` -/
structure FormatSpec where
  type : FormatType
  flags : FormatFlags
  base : ℕ
  qualifier : UInt8
  width : BitVec 32
  deriving DecidableEq, Repr

/-! ### `format_decode` -/

/-- `length_mod` -/
def lengthMod : List UInt8 := ['h', 'l', 'j', 'z', 't'].map ch

/-- `++fmt`, for a cursor that is read afterwards. -/
def advance : List UInt8 → Except Fault (List UInt8)
  | [] => throw .bounds
  | _ :: fmt => return fmt

/-- The loop over the flags, after its first `++fmt`. -/
def flagLoop : FormatFlags → List UInt8 → FormatFlags × List UInt8
  | flags, [] => (flags, [])
  | flags, c :: fmt =>
    if c = ch '+' then flagLoop { flags with ffSign := true } fmt
    else if c = ch '#' then flagLoop { flags with ffPrefix := true } fmt
    else (flags, c :: fmt)

/-- The width. -/
def decodeWidth (fmt : List UInt8) : BitVec 32 × List UInt8 :=
  if isdigit (peek fmt) then
    let (value, rest) := strtol fmt 10
    (value.setWidth 32, rest)
  else (0#32, fmt)

/-- The length modifier, a capital letter when it is doubled. -/
def decodeQualifier (fmt : List UInt8) : Except Fault (UInt8 × List UInt8) := do
  if (strchr lengthMod (peek fmt)).isSome then
    let qualifier := peek fmt
    let fmt ← advance fmt
    if peek fmt = qualifier then
      let fmt ← advance fmt
      return (toupper qualifier, fmt)
    else return (qualifier, fmt)
  else return (0, fmt)

/-- The `switch` over the qualifier. -/
def qualifierType (qualifier : UInt8) : FormatType :=
  if qualifier = ch 'H' then .byte
  else if qualifier = ch 'h' then .short
  else if qualifier = ch 'l' then .long
  else if qualifier = ch 'L' then .llong
  else if qualifier = ch 'j' then .intmax
  else if qualifier = ch 'z' then .size
  else if qualifier = ch 't' then .ptrdiff
  else .int

/-- The `switch` over the conversion of a number. -/
def decodeNumber (spec : FormatSpec) (c : UInt8) : FormatSpec :=
  let spec :=
    if c = ch 'd' ∨ c = ch 'i' then { spec with flags := { spec.flags with ffSigned := true } }
    else spec
  let spec := if c = ch 'o' then { spec with base := 8 } else spec
  let spec := if c = ch 'X' ∨ c = ch 'x' then { spec with base := 16 } else spec
  if c = ch 'd' ∨ c = ch 'i' ∨ c = ch 'o' ∨ c = ch 'x' ∨ c = ch 'X' ∨ c = ch 'u' then spec
  else { spec with type := .invalid }

/-- What the conversion `c` does to the specification. The type of a number comes last. -/
def decodeConversion (spec : FormatSpec) (c : UInt8) : FormatSpec :=
  if c = ch 'c' then { spec with type := .char }
  else if c = ch 's' then { spec with type := .str }
  else if c = ch '%' then { spec with type := .percent }
  else if c = ch 'p' then { spec with type := .ptr, base := 16, flags := ⟨false, false, true⟩ }
  else
    let spec := decodeNumber spec c
    { spec with type := qualifierType spec.qualifier }

/-- `format_decode`: the specification, and the distance `fmt - start` before it becomes an
`int`. -/
def formatDecode (start : List UInt8) : Except Fault (FormatSpec × ℕ) := do
  let spec : FormatSpec :=
    { type := .none, flags := .zero, width := 0#32, qualifier := 0, base := 10 }
  let fmt := start.dropWhile (· ≠ ch '%')
  if fmt.length ≠ start.length ∨ peek fmt = 0 then return (spec, start.length - fmt.length)
  let fmt ← advance fmt
  let (flags, fmt) := flagLoop spec.flags fmt
  let (width, fmt) := decodeWidth fmt
  let (qualifier, fmt) ← decodeQualifier fmt
  let spec := { spec with flags := flags, width := width, qualifier := qualifier }
  -- the last `++fmt` is not checked: it passes the NUL when the directive ends there
  return (decodeConversion spec (peek fmt), start.length - fmt.length + 1)

/-! ### Output -/

/-- What the caller passes: the words of the arguments, the strings that pointers point to, and
what the stack holds where `format_number` has its buffer. -/
structure Env where
  word : ℕ → BitVec 64
  text : BitVec 64 → List UInt8
  stack : Buf

/-- The writes made to the sink, and the number of arguments taken. -/
structure PrintState where
  out : List (List UInt8)
  next : ℕ

/-- Code that prints. -/
abbrev PrintM (α : Type) : Type := Prog PrintState α

/-- `vsinkprintf_write` -/
def sinkWrite (data : List UInt8) : PrintM Unit := modify fun s => { s with out := s.out ++ [data] }

/-- `vsinkprintf_putchar` -/
def sinkPutchar (c : UInt8) : PrintM Unit := sinkWrite [c]

/-- `vsinkprintf_repeat` -/
def sinkRepeat (c : UInt8) : ℕ → PrintM Unit
  | 0 => return
  | count + 1 => do
    sinkPutchar c
    sinkRepeat c count

/-- `vsinkprintf_puts_nonewline` -/
def sinkPuts (str : List UInt8) : PrintM Unit := sinkWrite str

/-- `va_arg` of a type of 64 bits. -/
def vaArg (env : Env) : PrintM (BitVec 64) := do
  let s ← get
  set { s with next := s.next + 1 }
  return env.word s.next

/-- `va_arg` of an `int`, converted to 64 bits. -/
def vaInt (env : Env) : PrintM (BitVec 64) := do return ((← vaArg env).setWidth 32).signExtend 64

/-- The string in the buffer of `format_number`. -/
def bufferString (buffer : Buf) : List UInt8 := (buffer.slice 0 256).takeWhile (· ≠ 0)

/-- `untoa` into the buffer. -/
def untoaBuffer (env : Env) (fuel : ℕ) (value : BitVec 64) (base : ℕ) : PrintM (ℕ × List UInt8) :=
  match untoa fuel value.toNat env.stack base with
  | .error e => throw e
  | .ok (len, buffer) => return (len, bufferString buffer)

/-- `format_number`. The negation of the least `intmax_t` wraps. -/
def formatNumber (env : Env) (fuel : ℕ) (value : BitVec 64) (spec : FormatSpec) : PrintM Unit := do
  let negative := spec.flags.ffSigned ∧ value.toInt < 0
  let (len, num) ← untoaBuffer env fuel (if negative then -value else value) spec.base
  let sign : List UInt8 :=
    if negative then [ch '-'] else if spec.flags.ffSign then [ch '+'] else []
  let basePrefix : List UInt8 :=
    if spec.flags.ffPrefix then
      if spec.base = 8 then [ch '0'] else if spec.base = 16 then [ch '0', ch 'x'] else []
    else []
  let len := len + sign.length + basePrefix.length
  let padding := if (len : ℤ) < spec.width.toInt then (spec.width.toInt - len).toNat else 0
  sinkRepeat (ch ' ') padding
  sinkPuts sign
  sinkPuts basePrefix
  sinkPuts num

/-! ### `vsinkprintf` -/

/-- `*fmt`, for the cursor of `vsinkprintf`. -/
def charAt (fmt : List UInt8) (pos : ℤ) : PrintM UInt8 :=
  if 0 ≤ pos ∧ pos ≤ fmt.length then return peek (fmt.drop pos.toNat) else throw .bounds

/-- The write of literal text: `read` becomes a `size_t`, and the sink reads as many bytes. -/
def writeLiteral (save : List UInt8) (read : ℤ) : PrintM Unit :=
  let size := (BitVec.ofInt 64 read).toNat
  if size ≤ save.length + 1 then sinkWrite ((save ++ [0]).take size) else throw .bounds

/-- The value of a number, by its type. -/
def numberArg (env : Env) : FormatType → PrintM (BitVec 64)
  | .ptr | .llong | .long | .intmax | .size | .ptrdiff => vaArg env
  | _ => vaInt env

/-- The body of the loop: one piece of the format, literal text or a directive. -/
def printPiece (env : Env) (fuel : ℕ) (fmt : List UInt8) (pos : ℤ) : PrintM ℤ := do
  let save := fmt.drop pos.toNat
  match formatDecode save with
  | .error e => throw e
  | .ok (spec, distance) => do
    let read := toInt32 distance
    match spec.type with
    | .none => writeLiteral save read
    | .char => do
      let c ← vaInt env
      sinkRepeat (ch ' ') (max spec.width.toInt 0).toNat
      sinkPutchar (UInt8.ofNat c.toNat)
    | .str => do
      let toprint := env.text (← vaArg env)
      sinkRepeat (ch ' ') (max (spec.width - BitVec.ofNat 32 toprint.length).toInt 0).toNat
      sinkPuts toprint
    | .percent => sinkPutchar (ch '%')
    | .invalid => sinkPutchar (ch '?')
    | type => do
      let value ← numberArg env type
      formatNumber env fuel value spec
    return pos + read

/-- The loop of `vsinkprintf`; `digitFuel` is for the loops inside `untoa`. -/
def vsinkprintfLoop (env : Env) (digitFuel : ℕ) (fmt : List UInt8) : ℕ → ℤ → PrintM Unit
  | 0, _ => throw .fuel
  | fuel + 1, pos => do
    if (← charAt fmt pos) ≠ 0 then
      vsinkprintfLoop env digitFuel fmt fuel (← printPiece env digitFuel fmt pos)
    else return

def vsinkprintf (env : Env) (fuel : ℕ) (fmt : List UInt8) : PrintM Unit :=
  vsinkprintfLoop env fuel fmt fuel 0

/-! ### `vsnprintf` -/

/-- `struct vsinkprintf_buffer_sink`, with the memory around the `room` bytes that its caller
owns. -/
structure BufferSink where
  mem : ℤ → UInt8
  room : ℕ
  size : BitVec 32
  pos : BitVec 32

/-- Code that writes to a buffer. -/
abbrev BufferM (α : Type) : Type := Prog BufferSink α

/-- `data[i] = c` -/
def putByte (i : ℤ) (c : UInt8) : BufferM Unit := do
  let s ← get
  if 0 ≤ i ∧ i < s.room then set { s with mem := Function.update s.mem i c }
  else throw .bounds

/-- `memcpy` to `data + i`. -/
def putBytes : ℤ → List UInt8 → BufferM Unit
  | _, [] => return
  | i, c :: data => do
    putByte i c
    putBytes (i + 1) data

/-- `vsinkprintf_buffer_write` -/
def bufferWrite (data : List UInt8) : BufferM Unit := do
  let s ← get
  let remain := (max (s.size - 1#32 - s.pos).toInt 0).toNat
  if remain ≠ 0 then putBytes s.pos.toInt (data.take (min remain data.length))
  modify fun s => { s with pos := s.pos + BitVec.ofNat 32 data.length }

/-- The writes of a run, in order. -/
def bufferWrites : List (List UInt8) → BufferM Unit
  | [] => return
  | data :: out => do
    bufferWrite data
    bufferWrites out

/-- `vsnprintf`, on the writes that `vsinkprintf` makes. -/
def vsnprintfFrom (out : List (List UInt8)) : BufferM ℤ := do
  bufferWrites out
  let s ← get
  putByte (min (s.size - 1#32).toInt s.pos.toInt) 0
  return s.pos.toInt

/-- `vsnprintf`, into `size` bytes of memory. -/
def vsnprintf (env : Env) (fuel : ℕ) (mem : ℤ → UInt8) (size : ℕ) (fmt : List UInt8) :
    Except Fault (ℤ × BufferSink) := do
  let (_, printed) ← vsinkprintf env fuel fmt ⟨[], 0⟩
  vsnprintfFrom printed.out ⟨mem, size, BitVec.ofNat 32 size, 0#32⟩

end Format

end Kernel64
