import NodeLogs.Toml.Quoted

/-! TOML documents that hold only what a setting can be: pairs of a key and a
string, an integer or an array of strings. A document with anything else in it,
such as a table, a date or a key of several parts, is not read at all, whether
or not the rest of TOML allows it. -/

namespace NodeLogs.Toml

inductive Value where
  | string (s : Text)
  | integer (n : Int)
  | strings (ss : List Text)

/-! ### Between the tokens -/

def skipSpace (cs : Text) : Text :=
  cs.dropWhile fun c => c == ' ' || c == '\t'

/-- Leaves out spaces, line breaks and comments. -/
def skipTrivia (comment : Bool) : Text → Text
  | [] => []
  | '\n' :: cs => skipTrivia false cs
  | '\r' :: '\n' :: cs => skipTrivia false cs
  | c :: cs =>
    if comment then if isPlain c then skipTrivia true cs else c :: cs
    else if c = ' ' || c = '\t' then skipTrivia false cs
    else if c = '#' then skipTrivia true cs
    else c :: cs

/-- What may follow a value in its line: a comment and the end of the line. -/
def lineEnd? (cs : Text) : Option Text :=
  let cs := skipSpace cs
  let cs := match cs with
    | '#' :: _ => cs.dropWhile isPlain
    | _ => cs
  match cs with
  | [] => some []
  | '\n' :: cs => some cs
  | '\r' :: '\n' :: cs => some cs
  | _ => none

/-! ### Keys -/

def isBareKeyChar (c : Char) : Bool :=
  ('A' ≤ c && c ≤ 'Z') || ('a' ≤ c && c ≤ 'z') || isAsciiDigit c || c == '_' || c == '-'

/-- A key of one part, bare or quoted within a line. -/
def key? (cs : Text) : Option (Text × Text) :=
  match cs with
  | '"' :: rest => lineString? '"' none [] rest
  | '\'' :: rest => lineString? '\'' none [] rest
  | _ =>
    match cs.span isBareKeyChar with
    | ([], _) => none
    | (key, rest) => some (key, rest)

/-! ### Integers -/

/-- More digits, single underscores between them, on top of the number so far. -/
def moreDigits (base n : Nat) : Text → Nat × Text
  | [] => (n, [])
  | '_' :: c :: cs =>
    match digitBelow? base c with
    | some d => moreDigits base (base * n + d) cs
    | none => (n, '_' :: c :: cs)
  | c :: cs =>
    match digitBelow? base c with
    | some d => moreDigits base (base * n + d) cs
    | none => (n, c :: cs)
where
  digitBelow? (base : Nat) (c : Char) : Option Nat :=
    (Json.Decoder.hexValue? c).filter (· < base)

/-- At least one digit. -/
def digits? (base : Nat) : Text → Option (Nat × Text)
  | [] => none
  | c :: cs =>
    match moreDigits.digitBelow? base c with
    | some d => some (moreDigits base d cs)
    | none => none

/-- A decimal number without a leading zero. -/
def decimal? : Text → Option (Nat × Text)
  | '0' :: cs => some (0, cs)
  | cs => digits? 10 cs

/-- A signed decimal number, or an unsigned one in base 16, 8 or 2. -/
def unbounded? : Text → Option (Int × Text)
  | '+' :: cs => (decimal? cs).map fun (n, rest) => ((n : Int), rest)
  | '-' :: cs => (decimal? cs).map fun (n, rest) => (-(n : Int), rest)
  | '0' :: 'x' :: cs => (digits? 16 cs).map fun (n, rest) => ((n : Int), rest)
  | '0' :: 'o' :: cs => (digits? 8 cs).map fun (n, rest) => ((n : Int), rest)
  | '0' :: 'b' :: cs => (digits? 2 cs).map fun (n, rest) => ((n : Int), rest)
  | cs => (decimal? cs).map fun (n, rest) => ((n : Int), rest)

/-- The least number that is too large, 2⁶³: integers have 64 bits, the sign included. -/
def integerLimit : Int := 9223372036854775808

def integer? (cs : Text) : Option (Int × Text) :=
  match unbounded? cs with
  | some (n, rest) => if -integerLimit ≤ n ∧ n < integerLimit then some (n, rest) else none
  | none => none

/-! ### Arrays and pairs -/

/-- The strings of an array after its bracket, with a comma between two of
them and perhaps one at the end. -/
def items? : Nat → List Text → Text → Option (List Text × Text)
  | 0, _, _ => none
  | fuel + 1, done, cs =>
    match skipTrivia false cs with
    | ']' :: rest => some (done.reverse, rest)
    | cs =>
      match string? cs with
      | none => none
      | some (s, rest) =>
        match skipTrivia false rest with
        | ']' :: rest => some ((s :: done).reverse, rest)
        | ',' :: rest => items? fuel (s :: done) rest
        | _ => none

def value? (cs : Text) : Option (Value × Text) :=
  match cs with
  | '"' :: _ => (string? cs).map fun (s, rest) => (.string s, rest)
  | '\'' :: _ => (string? cs).map fun (s, rest) => (.string s, rest)
  | '[' :: rest => (items? cs.length [] rest).map fun (ss, rest) => (.strings ss, rest)
  | _ => (integer? cs).map fun (n, rest) => (.integer n, rest)

/-- A key, an equals sign, a value and the end of the line. -/
def pair? (cs : Text) : Option (Text × Value × Text) := do
  let (key, cs) ← key? cs
  match skipSpace cs with
  | '=' :: cs =>
    let (v, cs) ← value? (skipSpace cs)
    let cs ← lineEnd? cs
    return (key, v, cs)
  | _ => none

def pairs? : Nat → List (Text × Value) → Text → Option (List (Text × Value))
  | 0, _, _ => none
  | fuel + 1, done, cs =>
    match skipTrivia false cs with
    | [] => some done.reverse
    | cs =>
      match pair? cs with
      | none => none
      | some (key, v, rest) => pairs? fuel ((key, v) :: done) rest

/-- The pairs of a document in order; a byte order mark may stand before them. -/
def document? (cs : Text) : Option (List (Text × Value)) :=
  match cs with
  | '\ufeff' :: rest => pairs? cs.length [] rest
  | _ => pairs? (cs.length + 1) [] cs

end NodeLogs.Toml
