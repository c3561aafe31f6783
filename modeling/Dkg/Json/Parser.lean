import Dkg.Json.Writer

/-!
`StrictJsonParser` and the two entry points of `canonical-json.ts`. The position of the scanner is
the rest of the text; the conversion of a number token is a parameter of the scanner.
-/

namespace Dkg.Json
open Revert Utf16

/-- `fail`: the problem, and the rest of the text it was met at. -/
def fail {β : Type} (problem : Problem) (rest : Text) : Except Err β :=
  .error (.at problem rest.length)

def isWhitespace (unit : ℕ) : Bool :=
  unit == 0x20 || unit == 0x09 || unit == 0x0a || unit == 0x0d

def skipWhitespace (rest : Text) : Text := rest.dropWhile isWhitespace

def expect (unit : ℕ) : Text → Except Err Text
  | u :: rest => if u = unit then .ok rest else fail (.expected unit) (u :: rest)
  | [] => fail (.expected unit) []

def parseLiteral (token : Text) (rest : Text) : Except Err Text :=
  if rest.take token.length = token then .ok (rest.drop token.length)
  else fail (.expectedLiteral token) rest

/-- `hexNibble`, `none` for −1. -/
def hexNibble (unit : ℕ) : Option ℕ :=
  if 0x30 ≤ unit ∧ unit ≤ 0x39 then some (unit - 0x30)
  else if 0x41 ≤ unit ∧ unit ≤ 0x46 then some (unit - 0x41 + 10)
  else if 0x61 ≤ unit ∧ unit ≤ 0x66 then some (unit - 0x61 + 10)
  else none

/-- `parseEscapedHexCodeUnit`; the four digits are taken off by the caller. -/
def parseEscapedHexCodeUnit (rest : Text) : Except Err ℕ :=
  if rest.length < 4 then fail .truncatedUnicodeEscape rest
  else (rest.take 4).foldlM (fun value unit => match hexNibble unit with
    | some nibble => .ok (value * 16 + nibble)
    | none => fail .invalidUnicodeEscape rest) 0

/-- The string under construction in `parseString`: joined chunks, parts that wait to be joined,
the slice since `rawStart`, and a high surrogate that waits for its other half. -/
structure StringBuffer where
  chunks : List Text
  parts : List Text
  raw : Text
  pendingHighSurrogate : Option ℕ

namespace StringBuffer

def empty : StringBuffer := ⟨[], [], [], none⟩

def flushParts (b : StringBuffer) : StringBuffer :=
  if b.parts.length = 0 then b
  else { b with chunks := b.chunks ++ [b.parts.flatten], parts := [] }

def appendPart (b : StringBuffer) (value : Text) : StringBuffer :=
  if value.length = 0 then b
  else
    let b := { b with parts := b.parts ++ [value] }
    if b.parts.flatten.length ≥ 8192 ∨ b.parts.length ≥ 1024 then b.flushParts else b

def flushRaw (b : StringBuffer) : StringBuffer :=
  if b.raw.length > 0 then { b.appendPart b.raw with raw := [] } else b

def appendCodeUnit (b : StringBuffer) (unit : ℕ) (rest : Text) : Except Err StringBuffer :=
  match b.pendingHighSurrogate with
  | some high =>
    if ¬IsLow unit then fail .unpairedHighSurrogate rest
    else .ok { b.appendPart [high, unit] with pendingHighSurrogate := none }
  | none =>
    if IsHigh unit then .ok { b with pendingHighSurrogate := some unit }
    else if IsLow unit then fail .unpairedLowSurrogate rest
    else .ok (b.appendPart [unit])

/-- `chunks.join('')` after the last flush. -/
def join (b : StringBuffer) : Text := b.flushRaw.flushParts.chunks.flatten

end StringBuffer

/-- What the unit after a backslash stands for, when it is not a unicode escape. -/
def simpleEscape (unit : ℕ) : Option ℕ :=
  if unit = 0x22 ∨ unit = 0x2f ∨ unit = 0x5c then some unit
  else if unit = 0x62 then some 0x08
  else if unit = 0x66 then some 0x0c
  else if unit = 0x6e then some 0x0a
  else if unit = 0x72 then some 0x0d
  else if unit = 0x74 then some 0x09
  else none

/-- The loop of `parseString`, after the opening quote. -/
def parseStringLoop (b : StringBuffer) (rest : Text) : Except Err (Text × Text) :=
  match rest with
  | [] => fail .unterminatedString []
  | code :: rest' =>
    if code = 0x22 then
      if b.pendingHighSurrogate ≠ none then fail .unpairedHighSurrogate rest
      else .ok (b.join, rest')
    else if code < 0x20 then fail .unescapedControlCharacter rest
    else if code ≠ 0x5c then
      if b.pendingHighSurrogate ≠ none then do
        let b ← b.flushRaw.appendCodeUnit code rest
        parseStringLoop b rest'
      else if IsHigh code then
        match rest' with
        | next :: rest'' =>
          if IsLow next then parseStringLoop { b with raw := b.raw ++ [code, next] } rest''
          else parseStringLoop { b.flushRaw with pendingHighSurrogate := some code } (next :: rest'')
        | [] => parseStringLoop { b.flushRaw with pendingHighSurrogate := some code } []
      else if IsLow code then fail .unpairedLowSurrogate rest
      else parseStringLoop { b with raw := b.raw ++ [code] } rest'
    else
      let b := b.flushRaw
      match rest' with
      | [] => fail .unterminatedString []
      | escape :: rest'' =>
        match simpleEscape escape with
        | some unit => do
          let b ← b.appendCodeUnit unit rest''
          parseStringLoop b rest''
        | none =>
          if escape = 0x75 then do
            let unit ← parseEscapedHexCodeUnit rest''
            let b ← b.appendCodeUnit unit (rest''.drop 4)
            parseStringLoop b (rest''.drop 4)
          else fail .invalidEscape rest''
termination_by rest.length
decreasing_by all_goals simp_all; try omega

/-- `parseString`, at the opening quote. -/
def parseString (rest : Text) : Except Err (Text × Text) := parseStringLoop .empty (rest.drop 1)

def isDigit (unit : ℕ) : Bool := decide (0x30 ≤ unit ∧ unit ≤ 0x39)

/-- One digit and all that follow. -/
def scanDigits (rest : Text) : Except Err (Text × Text) :=
  match rest with
  | u :: _ => if isDigit u then .ok (rest.takeWhile isDigit, rest.dropWhile isDigit)
    else fail .invalidNumber rest
  | [] => fail .invalidNumber []

def scanSign (rest : Text) : Text × Text :=
  match rest with
  | 0x2d :: rest' => ([0x2d], rest')
  | _ => ([], rest)

def scanInteger (rest : Text) : Except Err (Text × Text) :=
  match rest with
  | 0x30 :: rest' => .ok ([0x30], rest')
  | _ => scanDigits rest

def scanFraction (rest : Text) : Except Err (Text × Text) :=
  match rest with
  | 0x2e :: rest' => do
    let (digits, rest) ← scanDigits rest'
    return (0x2e :: digits, rest)
  | _ => .ok ([], rest)

def scanExponentSign (rest : Text) : Text × Text :=
  match rest with
  | 0x2b :: rest' => ([0x2b], rest')
  | 0x2d :: rest' => ([0x2d], rest')
  | _ => ([], rest)

def scanExponent (rest : Text) : Except Err (Text × Text) :=
  match rest with
  | u :: rest' =>
    if u = 0x65 ∨ u = 0x45 then do
      let (sign, rest) := scanExponentSign rest'
      let (digits, rest) ← scanDigits rest
      return (u :: sign ++ digits, rest)
    else .ok ([], rest)
  | [] => .ok ([], [])

/-- The token of `parseNumber`. -/
def scanNumber (rest : Text) : Except Err (Text × Text) := do
  let (sign, rest) := scanSign rest
  let (integer, rest) ← scanInteger rest
  let (fraction, rest) ← scanFraction rest
  let (exponent, rest) ← scanExponent rest
  return (sign ++ integer ++ fraction ++ exponent, rest)

section Parser
variable {ν : Type} (convert : Text → Except Problem ν) (maxDepth : ℕ)

def parseNumber (rest : Text) : Except Err (Value ν × Text) := do
  let (token, rest) ← scanNumber rest
  match convert token with
  | .ok n => return (.number n, rest)
  | .error problem => fail problem rest

mutual

def parseValue : ℕ → ℕ → Text → Except Err (Value ν × Text)
  | 0, _, _ => .error .outOfFuel
  | fuel + 1, depth, rest =>
    if depth > maxDepth then fail .nestingExceeds rest
    else match rest with
      | [] => fail .expectedValue []
      | u :: rest' =>
        if u = 0x22 then do
          let (s, rest) ← parseString rest
          return (.string s, rest)
        else if u = 0x7b then parseObject fuel (depth + 1) rest'
        else if u = 0x5b then parseArray fuel (depth + 1) rest'
        else if u = 0x74 then do
          return (.bool true, ← parseLiteral trueToken rest)
        else if u = 0x66 then do
          return (.bool false, ← parseLiteral falseToken rest)
        else if u = 0x6e then do
          return (.null, ← parseLiteral nullToken rest)
        else if u = 0x2d ∨ (0x30 ≤ u ∧ u ≤ 0x39) then parseNumber convert rest
        else fail .expectedValue rest

/-- `parseObject` and `parseMembers`, after the opening brace. -/
def parseObject : ℕ → ℕ → Text → Except Err (Value ν × Text)
  | 0, _, _ => .error .outOfFuel
  | fuel + 1, depth, rest =>
    if depth > maxDepth then fail .nestingExceeds rest
    else match skipWhitespace rest with
      | 0x7d :: rest => .ok (.object [], rest)
      | rest => parseMembers fuel depth [] rest

/-- The loop over the members; `members` are those read so far. -/
def parseMembers : ℕ → ℕ → List (Text × Value ν) → Text → Except Err (Value ν × Text)
  | 0, _, _, _ => .error .outOfFuel
  | fuel + 1, depth, members, rest => do
    if rest.head? ≠ some 0x22 then fail .expectedObjectKey rest
    else do
      let (key, rest) ← parseString rest
      if key ∈ members.map Prod.fst then fail (.duplicateObjectKey key) rest
      else do
        let rest ← expect 0x3a (skipWhitespace rest)
        let (v, rest) ← parseValue fuel depth (skipWhitespace rest)
        match skipWhitespace rest with
        | 0x7d :: rest => return (.object (members ++ [(key, v)]), rest)
        | rest => do
          let rest ← expect 0x2c rest
          parseMembers fuel depth (members ++ [(key, v)]) (skipWhitespace rest)

def parseArray : ℕ → ℕ → Text → Except Err (Value ν × Text)
  | 0, _, _ => .error .outOfFuel
  | fuel + 1, depth, rest =>
    if depth > maxDepth then fail .nestingExceeds rest
    else match skipWhitespace rest with
      | 0x5d :: rest => .ok (.array [], rest)
      | rest => parseItems fuel depth [] rest

def parseItems : ℕ → ℕ → List (Value ν) → Text → Except Err (Value ν × Text)
  | 0, _, _, _ => .error .outOfFuel
  | fuel + 1, depth, items, rest => do
    let (v, rest) ← parseValue fuel depth rest
    match skipWhitespace rest with
    | 0x5d :: rest => return (.array (items ++ [v]), rest)
    | rest => do
      let rest ← expect 0x2c rest
      parseItems fuel depth (items ++ [v]) (skipWhitespace rest)

end

/-- `parse`, with fuel for every call the text can lead to. -/
def parseText (text : Text) : Except Err (Value ν) := do
  let (v, rest) ← parseValue convert maxDepth (3 * text.length + 3) 0 (skipWhitespace text)
  if skipWhitespace rest ≠ [] then fail .trailingInput (skipWhitespace rest)
  else return v

end Parser

/-- `NormalizedDecimal`. -/
structure NormalizedDecimal where
  negative : Bool
  digits : Text
  exponent : ℤ
deriving DecidableEq

def decimalNumber (digits : Text) : ℕ := digits.foldl (fun n u => n * 10 + (u - 0x30)) 0

/-- `parseBoundedDecimalExponent`, on the text after the exponent mark. -/
def parseBoundedDecimalExponent (raw : Text) : Option ℤ :=
  let (sign, digits) := scanExponentSign raw
  let significant := digits.dropWhile (· == 0x30)
  if significant.length = 0 then some 0
  else if significant.length > 15 then none
  else
    let magnitude := decimalNumber significant
    if magnitude > 2 ^ 53 - 1 then none
    else some (if sign = [0x2d] then -magnitude else magnitude)

/-- The parts of a token: sign, integer digits, fraction digits and exponent text. -/
structure DecimalParts where
  negative : Bool
  integerDigits : Text
  fractionDigits : Text
  exponent : Option Text

/-- The expression that `normalizeDecimalToken` matches a token with. -/
def splitDecimal (token : Text) : DecimalParts :=
  let (sign, rest) := scanSign token
  let (integer, rest) := rest.span isDigit
  let (fraction, rest) := match rest with
    | 0x2e :: rest => rest.span isDigit
    | rest => ([], rest)
  ⟨sign = [0x2d], integer, fraction, rest.tail?⟩

def normalizeDecimalToken (token : Text) : Option NormalizedDecimal :=
  let parts := splitDecimal token
  let digits := (parts.integerDigits ++ parts.fractionDigits).dropWhile (· == 0x30)
  if digits.length = 0 then some ⟨false, [0x30], 0⟩
  else do
    let explicitExponent ← match parts.exponent with
      | none => some 0
      | some raw => parseBoundedDecimalExponent raw
    let zeros := (digits.reverse.takeWhile (· == 0x30)).length
    return ⟨parts.negative, digits.take (digits.length - zeros),
      explicitExponent - parts.fractionDigits.length + zeros⟩

def sameExactDecimalValue (left right : Text) : Bool :=
  match normalizeDecimalToken left, normalizeDecimalToken right with
  | some l, some r => decide (l = r)
  | _, _ => false

/-- The checks of `parseNumber` on a token. -/
def toNumber (N : Numbers) (token : Text) : Except Problem N.Num := do
  let value := N.number token
  require (N.isFinite value = true) .numberNotFinite
  require (sameExactDecimalValue token (N.stringify value) = true) .numberLosesInformation
  return value

/-- `parseJsonStrict` of a string. -/
def parseJsonStrict (N : Numbers) (input : Text) (options : Options) :
    Except Err (Value N.Num) := do
  let limits ← resolveLimits options
  require (¬(utf8 input).length > limits.maxBytes) (.inputExceeds limits.maxBytes)
  require (input.head? ≠ some 0xfeff) .byteOrderMark
  parseText (toNumber N) limits.maxDepth input

/-- `parseCanonicalJson` of a string. -/
def parseCanonicalJson (N : Numbers) (input : Text) (options : Options) :
    Except Err (Value N.Num) := do
  let value ← parseJsonStrict N input options
  let text ← canonicalizeJson N value options
  require (text = input) .notCanonical
  return value

end Dkg.Json
