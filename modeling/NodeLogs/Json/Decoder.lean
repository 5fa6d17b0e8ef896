import NodeLogs.Json.Value
import NodeLogs.Text.Decimal

/-! Decoding JSON, strictly by its grammar. A reader takes what it needs off
the front of a text and returns it with the rest. `decodeWithin?` bounds how
deep containers may nest; of members with one key the last value counts, at
the place of the first. -/

namespace NodeLogs.Json

namespace Decoder

def isSpace (c : Char) : Bool :=
  c == ' ' || c == '\t' || c == '\n' || c == '\r'

def skipSpace (cs : Text) : Text :=
  cs.dropWhile isSpace

/-! ### Strings -/

/-- Where a string's reader stands between two characters. -/
inductive StringState where
  | plain
  | escape
  /-- In the digits of an escaped code unit; `high` is the first half of a pair. -/
  | unit (high : Option Nat) (value missing : Nat)
  /-- After the first half of a pair, before the backslash of the second. -/
  | half (high : Nat)
  | halfEscape (high : Nat)

/-- What an escape of one letter stands for. -/
def unescape? (c : Char) : Option Char :=
  match c with
  | '"' => some '"'
  | '\\' => some '\\'
  | '/' => some '/'
  | 'b' => some '\x08'
  | 'f' => some '\x0c'
  | 'n' => some '\n'
  | 'r' => some '\r'
  | 't' => some '\t'
  | _ => none

def hexValue? (c : Char) : Option Nat :=
  if '0' ≤ c && c ≤ '9' then some (c.toNat - '0'.toNat)
  else if 'a' ≤ c && c ≤ 'f' then some (c.toNat - 'a'.toNat + 10)
  else if 'A' ≤ c && c ≤ 'F' then some (c.toNat - 'A'.toNat + 10)
  else none

def isHighHalf (n : Nat) : Bool := 0xD800 ≤ n && n ≤ 0xDBFF

def isLowHalf (n : Nat) : Bool := 0xDC00 ≤ n && n ≤ 0xDFFF

def joinHalves (high low : Nat) : Char :=
  Char.ofNat (0x10000 + 0x400 * (high - 0xD800) + (low - 0xDC00))

/-- What follows a complete code unit: a character, the wait for a second half, or nothing. -/
def afterUnit? (high : Option Nat) (n : Nat) : Option (Option Char × StringState) :=
  match high with
  | some h => if isLowHalf n then some (some (joinHalves h n), .plain) else none
  | none =>
    if isHighHalf n then some (none, .half n)
    else if isLowHalf n then none
    else some (some (Char.ofNat n), .plain)

/-- One character inside a string, the closing quote apart: the next state and what it adds. -/
def stringStep? : StringState → Char → Option (Option Char × StringState)
  | .plain, c =>
    if c = '\\' then some (none, .escape) else if c.toNat < 0x20 then none else some (some c, .plain)
  | .escape, c =>
    if c = 'u' then some (none, .unit none 0 4) else (unescape? c).map fun d => (some d, .plain)
  | .unit high value missing, c =>
    match hexValue? c with
    | none => none
    | some digit =>
      let value := 0x10 * value + digit
      if missing ≤ 1 then afterUnit? high value else some (none, .unit high value (missing - 1))
  | .half high, c => if c = '\\' then some (none, .halfEscape high) else none
  | .halfEscape high, c => if c = 'u' then some (none, .unit (some high) 0 4) else none

/-- A string after its opening quote; `done` is what was read, last character first. -/
def stringBody? (state : StringState) (done : Text) : Text → Option (Text × Text)
  | [] => none
  | c :: cs =>
    match state, c with
    | .plain, '"' => some (done.reverse, cs)
    | _, _ =>
      match stringStep? state c with
      | none => none
      | some (none, next) => stringBody? next done cs
      | some (some d, next) => stringBody? next (d :: done) cs

/-! ### Numbers -/

/-- At least one digit. -/
def digits? (cs : Text) : Option (Text × Text) :=
  match cs.span isAsciiDigit with
  | ([], _) => none
  | (ds, rest) => some (ds, rest)

/-- The whole part: no leading zero before another digit. -/
def whole? (cs : Text) : Option (Text × Text) :=
  match digits? cs with
  | some ('0' :: _ :: _, _) => none
  | other => other

/-- The fraction with its point; empty if there is none. -/
def fraction? : Text → Option (Text × Text)
  | '.' :: cs => (digits? cs).map fun (ds, rest) => ('.' :: ds, rest)
  | cs => some ([], cs)

def exponentSign : Text → Char × Text
  | '-' :: cs => ('-', cs)
  | '+' :: cs => ('+', cs)
  | cs => ('+', cs)

/-- The exponent, spelled with a small letter and a sign; empty if there is none. -/
def exponent? : Text → Option (Text × Text)
  | c :: cs =>
    if c = 'e' || c = 'E' then
      let (sign, cs) := exponentSign cs
      (digits? cs).map fun (ds, rest) => ('e' :: sign :: ds, rest)
    else some ([], c :: cs)
  | [] => some ([], [])

def minus : Text → Text × Text
  | '-' :: cs => (['-'], cs)
  | cs => ([], cs)

def number? (cs : Text) : Option (Value × Text) := do
  let (sign, cs) := minus cs
  let (whole, cs) ← whole? cs
  let (fraction, cs) ← fraction? cs
  let (exponent, cs) ← exponent? cs
  return (.number (sign ++ whole ++ fraction ++ exponent), cs)

/-! ### Words, arrays and objects -/

/-- A value spelled by a word. -/
def word? (word : Text) (v : Value) (cs : Text) : Option (Value × Text) :=
  if word.isPrefixOf cs then some (v, cs.drop word.length) else none

/-- The items of an array after its bracket, at least one; `done` holds them last first. -/
def items? (element : Text → Option (Value × Text)) :
    Nat → List Value → Text → Option (Value × Text)
  | 0, _, _ => none
  | fuel + 1, done, cs =>
    match element (skipSpace cs) with
    | none => none
    | some (v, rest) =>
      match skipSpace rest with
      | ',' :: rest => items? element fuel (v :: done) rest
      | ']' :: rest => some (.array (v :: done).reverse, rest)
      | _ => none

/-- A key, its colon and its value. -/
def member? (element : Text → Option (Value × Text)) (cs : Text) :
    Option (Text × Value × Text) :=
  match skipSpace cs with
  | '"' :: cs =>
    match stringBody? .plain [] cs with
    | none => none
    | some (key, rest) =>
      match skipSpace rest with
      | ':' :: rest => (element (skipSpace rest)).map fun (v, rest) => (key, v, rest)
      | _ => none
  | _ => none

/-- The members of an object after its brace, at least one. -/
def members? (element : Text → Option (Value × Text)) :
    Nat → Object → Text → Option (Value × Text)
  | 0, _, _ => none
  | fuel + 1, done, cs =>
    match member? element cs with
    | none => none
    | some (key, v, rest) =>
      match skipSpace rest with
      | ',' :: rest => members? element fuel (done.set key v) rest
      | '}' :: rest => some (.object (done.set key v), rest)
      | _ => none

/-- What may stand where containers are no longer allowed. -/
def scalar? (cs : Text) : Option (Value × Text) :=
  match cs with
  | '"' :: rest => (stringBody? .plain [] rest).map fun (s, rest) => (.string s, rest)
  | 't' :: _ => word? "true".toList (.bool true) cs
  | 'f' :: _ => word? "false".toList (.bool false) cs
  | 'n' :: _ => word? "null".toList .null cs
  | _ => number? cs

/-- A value with at most `depth` containers inside one another, and at most
`size` items in each: as many as the text has characters. -/
def value? (size : Nat) : Nat → Text → Option (Value × Text)
  | 0, cs => match cs with
    | '[' :: _ => none
    | '{' :: _ => none
    | _ => scalar? cs
  | depth + 1, cs => match cs with
    | '[' :: rest =>
      match skipSpace rest with
      | ']' :: rest => some (.array [], rest)
      | _ => items? (value? size depth) size [] rest
    | '{' :: rest =>
      match skipSpace rest with
      | '}' :: rest => some (.object [], rest)
      | _ => members? (value? size depth) size [] rest
    | _ => scalar? cs

end Decoder

/-- Decodes a whole text with at most `depth` containers inside one another. -/
def decodeWithin? (depth : Nat) (cs : Text) : Option Value :=
  match Decoder.value? cs.length depth (Decoder.skipSpace cs) with
  | some (v, rest) => if (Decoder.skipSpace rest).isEmpty then some v else none
  | none => none

/-- The deepest nesting that is decoded. -/
def nestingLimit : Nat := 127

/-- Decodes a whole text; the container that nests one deeper than the limit is an error. -/
def decode? (cs : Text) : Option Value :=
  decodeWithin? nestingLimit cs

/-- Decodes with no limit: a text has at most as many containers as characters. -/
def decodeUnbounded? (cs : Text) : Option Value :=
  decodeWithin? cs.length cs

/-- Decodes a whole text that is to be an object. -/
def decodeObject? (cs : Text) : Option Object :=
  match decode? cs with
  | some (.object o) => some o
  | _ => none

end NodeLogs.Json
