import Dkg.Lib.Checked
import Dkg.Lib.Utf16

/-!
The serializer of `canonical-json.ts`: values are written to a sink that counts bytes, strings in
slices and objects by ascending keys.
-/

namespace Dkg.Json
open Revert Utf16

/-- A JSON value with numbers in `ν`; a tree, so that the cycle check never fires. -/
inductive Value (ν : Type) where
  | null
  | bool (b : Bool)
  | number (n : ν)
  | string (s : Text)
  | array (items : List (Value ν))
  | object (members : List (Text × Value ν))

/-- The numbers of the engine: `Number(token)`, `Number.isFinite` and `JSON.stringify`. -/
structure Numbers where
  Num : Type
  number : Text → Num
  isFinite : Num → Bool
  stringify : Num → Text

/-- What is wrong with a text; the parser adds how much of it was left. -/
inductive Problem where
  | nestingExceeds
  | expectedValue
  | expectedObjectKey
  | duplicateObjectKey (key : Text)
  | expected (unit : ℕ)
  | expectedLiteral (token : Text)
  | unescapedControlCharacter
  | unterminatedString
  | unpairedHighSurrogate
  | unpairedLowSurrogate
  | invalidEscape
  | truncatedUnicodeEscape
  | invalidUnicodeEscape
  | invalidNumber
  | numberNotFinite
  | numberLosesInformation
  | trailingInput
deriving DecidableEq

inductive Err where
  | invalidMaxBytes
  | invalidMaxDepth
  | nestingExceeds (maxDepth : ℕ)
  | notFinite
  | outputExceeds (maxBytes : ℕ)
  | unpairedHighSurrogate
  | unpairedLowSurrogate
  | inputExceeds (maxBytes : ℕ)
  | byteOrderMark
  | at (problem : Problem) (left : ℕ)
  | outOfFuel
  | notCanonical
deriving DecidableEq

def MAX_CANONICAL_JSON_BYTES : ℕ := 8 * 1024 * 1024
def MAX_CANONICAL_JSON_DEPTH : ℕ := 64

structure Options where
  maxBytes : Option ℤ
  maxDepth : Option ℤ

structure Limits where
  maxBytes : ℕ
  maxDepth : ℕ

def resolveLimits (options : Options) : Except Err Limits := do
  let maxBytes := options.maxBytes.getD MAX_CANONICAL_JSON_BYTES
  let maxDepth := options.maxDepth.getD MAX_CANONICAL_JSON_DEPTH
  require (¬(maxBytes ≤ 0 ∨ maxBytes > MAX_CANONICAL_JSON_BYTES)) .invalidMaxBytes
  require (¬(maxDepth < 0 ∨ maxDepth > MAX_CANONICAL_JSON_DEPTH)) .invalidMaxDepth
  return ⟨maxBytes.toNat, maxDepth.toNat⟩

/-- `BoundedJsonWriter`. -/
structure Writer where
  chunks : List Text
  pending : Text
  byteLength : ℕ
  maxBytes : ℕ

namespace Writer

def new (maxBytes : ℕ) : Writer := ⟨[], [], 0, maxBytes⟩

def appendMeasured (w : Writer) (value : Text) (bytes : ℕ) : Except Err Writer := do
  require (¬w.byteLength + bytes > w.maxBytes) (.outputExceeds w.maxBytes)
  let w := { w with byteLength := w.byteLength + bytes, pending := w.pending ++ value }
  if w.pending.length ≥ 8192 then return { w with chunks := w.chunks ++ [w.pending], pending := [] }
  else return w

def appendAscii (value : Text) (w : Writer) : Except Err Writer :=
  w.appendMeasured value value.length

def appendUtf8 (value : Text) (w : Writer) : Except Err Writer :=
  w.appendMeasured value (utf8 value).length

def finish (w : Writer) : Text :=
  if w.pending.length > 0 then (w.chunks ++ [w.pending]).flatten else w.chunks.flatten

/-- `flushRaw`: the slice read since the last write, if it is not empty. -/
def flushRaw (raw : Text) (w : Writer) : Except Err Writer :=
  if raw.length > 0 then w.appendUtf8 raw else .ok w

end Writer

/-- `unit.toString(16)` of a nibble. -/
def hexDigit (n : ℕ) : ℕ := if n < 10 then 0x30 + n else 0x61 + (n - 10)

/-- The escape of a unit that is not written as it is. -/
def escaped (unit : ℕ) : Option Text :=
  if unit = 0x22 then some [0x5c, 0x22]
  else if unit = 0x5c then some [0x5c, 0x5c]
  else if unit = 0x08 then some [0x5c, 0x62]
  else if unit = 0x09 then some [0x5c, 0x74]
  else if unit = 0x0a then some [0x5c, 0x6e]
  else if unit = 0x0c then some [0x5c, 0x66]
  else if unit = 0x0d then some [0x5c, 0x72]
  else if unit < 0x20 then
    some [0x5c, 0x75, 0x30, 0x30, hexDigit (unit / 16), hexDigit (unit % 16)]
  else none

/-- A slice of 4096 units or more is written at once. -/
def flushLong (raw : Text) (w : Writer) : Except Err (Writer × Text) :=
  if raw.length ≥ 4096 then do return (← w.flushRaw raw, []) else .ok (w, raw)

/-- The loop of `writeCanonicalJsonString`: `raw` is the slice from `rawStart` to `index`. -/
def writeUnits (w : Writer) (raw : Text) : Text → Except Err Writer
  | [] => w.flushRaw raw
  | unit :: rest =>
    match escaped unit with
    | some e => do
      let w ← w.flushRaw raw
      let w ← w.appendAscii e
      writeUnits w [] rest
    | none =>
      if IsHigh unit then
        match rest with
        | next :: rest' =>
          if IsLow next then do
            let (w, raw) ← flushLong (raw ++ [unit, next]) w
            writeUnits w raw rest'
          else .error .unpairedHighSurrogate
        | [] => .error .unpairedHighSurrogate
      else if IsLow unit then .error .unpairedLowSurrogate
      else do
        let (w, raw) ← flushLong (raw ++ [unit]) w
        writeUnits w raw rest

def writeCanonicalJsonString (value : Text) (w : Writer) : Except Err Writer := do
  let w ← w.appendAscii [0x22]
  let w ← writeUnits w [] value
  w.appendAscii [0x22]

def nullToken : Text := [0x6e, 0x75, 0x6c, 0x6c]
def trueToken : Text := [0x74, 0x72, 0x75, 0x65]
def falseToken : Text := [0x66, 0x61, 0x6c, 0x73, 0x65]

/-- The members by ascending keys, as `Object.keys(record).sort()` lists them. -/
def sortMembers {β : Type} (members : List (Text × β)) : List (Text × β) :=
  members.insertionSort fun a b => a.1 ≤ b.1

/-- A comma before every part but the first. -/
def writeSeparated : List (Writer → Except Err Writer) → Writer → Except Err Writer
  | [], w => .ok w
  | [part], w => part w
  | part :: next :: parts, w => do
    let w ← part w
    let w ← w.appendAscii [0x2c]
    writeSeparated (next :: parts) w

def writeMember (member : Text × (Writer → Except Err Writer)) (w : Writer) :
    Except Err Writer := do
  let w ← writeCanonicalJsonString member.1 w
  let w ← w.appendAscii [0x3a]
  member.2 w

section Encode
variable (N : Numbers) (maxDepth : ℕ)

mutual

/-- `encode`; a container counts for the depth when it is entered. -/
def encode : Value N.Num → ℕ → Writer → Except Err Writer
  | v, depth, w =>
    if depth > maxDepth then .error (.nestingExceeds maxDepth)
    else match v with
      | .null => w.appendAscii nullToken
      | .bool b => w.appendAscii (if b then trueToken else falseToken)
      | .number n => do
        require (N.isFinite n = true) .notFinite
        w.appendAscii (N.stringify n)
      | .string s => writeCanonicalJsonString s w
      | .array items => do
        require (¬depth + 1 > maxDepth) (.nestingExceeds maxDepth)
        let w ← w.appendAscii [0x5b]
        let w ← writeSeparated (encodeItems items (depth + 1)) w
        w.appendAscii [0x5d]
      | .object members => do
        require (¬depth + 1 > maxDepth) (.nestingExceeds maxDepth)
        let w ← w.appendAscii [0x7b]
        let w ← writeSeparated ((sortMembers (encodeMembers members (depth + 1))).map writeMember) w
        w.appendAscii [0x7d]

def encodeItems : List (Value N.Num) → ℕ → List (Writer → Except Err Writer)
  | [], _ => []
  | v :: items, depth => encode v depth :: encodeItems items depth

def encodeMembers : List (Text × Value N.Num) → ℕ → List (Text × (Writer → Except Err Writer))
  | [], _ => []
  | (key, v) :: members, depth => (key, encode v depth) :: encodeMembers members depth

end

end Encode

def canonicalizeJson (N : Numbers) (value : Value N.Num) (options : Options) :
    Except Err Text := do
  let limits ← resolveLimits options
  let w ← encode N limits.maxDepth value 0 (.new limits.maxBytes)
  return w.finish

end Dkg.Json
