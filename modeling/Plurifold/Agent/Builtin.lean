import Plurifold.Core

/-!
# The builtin operations of the agent (`plurifold-agent`)

Objects are byte strings. Every operation is a function of its arguments, its inputs and its shard context; sleeping
takes time and changes nothing. `ExecError.invalidRecord` stands for the one message that quotes its record with Rust's
`Debug` escapes.
-/

namespace Plurifold

abbrev Bytes := List UInt8

/-- Why an execution fails. -/
inductive ExecError
  | text (message : String)
  /-- `invalid u64 record {record:?}`. -/
  | invalidRecord (record : String)
  deriving DecidableEq

abbrev Execution := Except ExecError Bytes

/-- The value of an option, or an error message. -/
def orText {α : Type} (o : Option α) (message : String) : Except ExecError α :=
  match o with
  | some a => .ok a
  | none => .error (.text message)

/-! ## Numbers and text -/

/-- `u64::checked_add`. -/
def checkedAdd (a b : UInt64) : Option UInt64 := if a.toNat + b.toNat < 2 ^ 64 then some (a + b) else none

/-- The digits of a `u64`, most significant first, up to the first overflow. -/
def parseDigits : UInt64 → List Char → Option UInt64
  | value, [] => some value
  | value, digit :: rest =>
    if digit.isDigit then
      let next := value.toNat * 10 + (digit.toNat - '0'.toNat)
      if next < 2 ^ 64 then parseDigits (UInt64.ofNat next) rest else none
    else none

/-- `str::parse::<u64>`: decimal digits after an optional plus sign. -/
def parseU64 : List Char → Option UInt64
  | [] | ['+'] => none
  | '+' :: digits => parseDigits 0 digits
  | digits => parseDigits 0 digits

/-- `u64::to_le_bytes`. -/
def toLeBytes (value : UInt64) : Bytes := (List.range 8).map fun i => UInt8.ofNat (value.toNat / 256 ^ i)

/-- `u64::from_le_bytes`. -/
def fromLeBytes (bytes : Bytes) : UInt64 := UInt64.ofNat (bytes.foldr (fun byte value => byte.toNat + 256 * value) 0)

/-- `str::split_inclusive`. -/
def splitInclusive (separator : Char) : List Char → List (List Char)
  | [] => []
  | c :: rest =>
    if c = separator then [c] :: splitInclusive separator rest
    else
      match splitInclusive separator rest with
      | [] => [[c]]
      | piece :: pieces => (c :: piece) :: pieces

/-- `str::strip_suffix`. -/
def stripSuffix (last : Char) (text : List Char) : Option (List Char) :=
  if text.getLast? = some last then some text.dropLast else none

/-- `str::lines`: a line ends with a line feed, or a carriage return and a line feed. -/
def lines (text : List Char) : List (List Char) :=
  (splitInclusive '\n' text).map fun line =>
    match stripSuffix '\n' line with
    | none => line
    | some line => (stripSuffix '\r' line).getD line

/-- The bytes of a text. -/
def textBytes (text : String) : Bytes := text.toUTF8.toList

/-! ## Operations -/

/-- The milliseconds an operation has to sleep. -/
def parseMillis (argument message : String) : Except ExecError UInt64 := orText (parseU64 argument.toList) message

def optionalBuiltinSleep (arguments : List String) (artifact : String) : Except ExecError Unit :=
  match arguments with
  | [] => .ok ()
  | value :: _ => do
    let _ ← parseMillis value s!"{artifact} optional milliseconds must be an integer"

/-- `{prefix}:{index}:{count}`. -/
def shardLabel (label : String) (shard : TaskShard) : Bytes := textBytes s!"{label}:{shard.index}:{shard.count}"

/-- The loop of `builtin:sum-records-u64`. -/
def sumRecords : UInt64 → List (List Char) → Except ExecError UInt64
  | sum, [] => .ok sum
  | sum, line :: rest =>
    let record := trim line
    if record.isEmpty then sumRecords sum rest
    else
      match parseU64 record with
      | none => .error (.invalidRecord (String.ofList record))
      | some value =>
        match checkedAdd sum value with
        | none => .error (.text "builtin:sum-records-u64 overflow")
        | some sum => sumRecords sum rest

/-- The loop of `builtin:sum-u64`. -/
def sumInputs : UInt64 → List Bytes → Except ExecError UInt64
  | sum, [] => .ok sum
  | sum, input :: rest =>
    if input.length ≠ 8 then .error (.text "builtin:sum-u64 inputs must be 8-byte little-endian u64 values")
    else
      match checkedAdd sum (fromLeBytes input) with
      | none => .error (.text "builtin:sum-u64 overflow")
      | some sum => sumInputs sum rest

def executeBuiltinOperation (artifact : String) (arguments : List String) (inputs : List Bytes)
    (shard : Option TaskShard) : Execution :=
  match artifact with
  | "builtin:identity" => orText inputs.head? "builtin:identity requires one input"
  | "builtin:concat" => .ok inputs.flatten
  | "builtin:echo" => .ok (textBytes (" ".intercalate arguments))
  | "builtin:shard-echo" => do
    let shard ← orText shard "builtin:shard-echo requires shard context"
    .ok (shardLabel (" ".intercalate arguments) shard)
  | "builtin:shard-sleep" => do
    let shard ← orText shard "builtin:shard-sleep requires shard context"
    let millis ← orText arguments.head? "builtin:shard-sleep requires milliseconds"
    let _ ← parseMillis millis "builtin:shard-sleep milliseconds must be an integer"
    .ok (shardLabel (arguments[1]?.getD "shard") shard)
  | "builtin:shard-sleep-input" => do
    let _ ← orText shard "builtin:shard-sleep-input requires shard context"
    let millis ← orText arguments.head? "builtin:shard-sleep-input requires milliseconds"
    let _ ← parseMillis millis "builtin:shard-sleep-input milliseconds must be an integer"
    orText inputs.head? "builtin:shard-sleep-input requires one input"
  | "builtin:sum-records-u64" => do
    let _ ← orText shard "builtin:sum-records-u64 requires shard context"
    optionalBuiltinSleep arguments "builtin:sum-records-u64"
    let bytes ← orText inputs.head? "builtin:sum-records-u64 requires one input"
    let text ← orText (String.fromUTF8? ⟨bytes.toArray⟩) "builtin:sum-records-u64 input must be UTF-8"
    let sum ← sumRecords 0 (lines text.toList)
    .ok (toLeBytes sum)
  | "builtin:sum-u64" => do
    optionalBuiltinSleep arguments "builtin:sum-u64"
    let sum ← sumInputs 0 inputs
    .ok (toLeBytes sum)
  | "builtin:sleep" => do
    let millis ← orText arguments.head? "builtin:sleep requires milliseconds as its first argument"
    let _ ← parseMillis millis "builtin:sleep milliseconds must be an integer"
    .ok (inputs.head?.getD (textBytes "done"))
  | other => .error (.text s!"unsupported artifact {other}")

end Plurifold
