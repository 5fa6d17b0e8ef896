import NodeLogs.Json.Value
import NodeLogs.Text.Decimal

/-! Compact JSON: no space between tokens, and in strings only the quote, the
backslash and the control characters below the space escaped. -/

namespace NodeLogs.Json

def hexDigit (n : Nat) : Char :=
  Nat.digitChar n

/-- A character inside a string. -/
def escapeChar (c : Char) : Text :=
  if c = '"' then ['\\', '"']
  else if c = '\\' then ['\\', '\\']
  else if c = '\x08' then ['\\', 'b']
  else if c = '\t' then ['\\', 't']
  else if c = '\n' then ['\\', 'n']
  else if c = '\x0c' then ['\\', 'f']
  else if c = '\r' then ['\\', 'r']
  else if c.toNat < 0x20 then
    ['\\', 'u', '0', '0', hexDigit (c.toNat / 0x10), hexDigit (c.toNat % 0x10)]
  else [c]

def quote (s : Text) : Text :=
  '"' :: s.flatMap escapeChar ++ ['"']

/-- The pieces with commas between them. -/
def commaSeparated : List Text → Text
  | [] => []
  | piece :: pieces => piece ++ pieces.flatMap (',' :: ·)

mutual

def Value.render : Value → Text
  | .null => "null".toList
  | .bool true => "true".toList
  | .bool false => "false".toList
  | .number numeral => numeral
  | .string s => quote s
  | .array items => '[' :: commaSeparated (renderItems items) ++ [']']
  | .object members => '{' :: commaSeparated (renderMembers members) ++ ['}']

def renderItems : List Value → List Text
  | [] => []
  | v :: vs => v.render :: renderItems vs

def renderMembers : List (Text × Value) → List Text
  | [] => []
  | (key, v) :: rest => (quote key ++ ':' :: v.render) :: renderMembers rest

end

def Object.render (o : Object) : Text :=
  (Value.object o).render

/-- A number's value, written in decimal. -/
def Value.ofNat (n : Nat) : Value :=
  .number (decimal n)

end NodeLogs.Json
