import NodeLogs.Json.Decoder

/-! Quoted strings of TOML. Between double quotes a backslash escapes, between
single quotes it is a character like any other; a string in three quotes may
run over several lines. Each reader takes one character at a time. -/

namespace NodeLogs.Toml

/-- May the character stand as itself in a line? All but the controls, of which the tab may. -/
def isPlain (c : Char) : Bool :=
  c == '\t' || (0x20 ≤ c.toNat && c.toNat != 0x7F)

/-- Is this the quote between which escapes count? -/
def escapes (quote : Char) : Bool := quote == '"'

/-- What an escape of one letter stands for. -/
def unescape? (c : Char) : Option Char :=
  match c with
  | '"' => some '"'
  | '\\' => some '\\'
  | 'b' => some '\x08'
  | 't' => some '\t'
  | 'n' => some '\n'
  | 'f' => some '\x0c'
  | 'r' => some '\r'
  | _ => none

/-- How many digits an escape by code point has. -/
def unitLength? (c : Char) : Option Nat :=
  if c = 'u' then some 4 else if c = 'U' then some 8 else none

/-- The character of a code point; half of a pair is none. -/
def scalar? (n : Nat) : Option Char :=
  if n < 0xD800 || (0xE000 ≤ n && n < 0x110000) then some (Char.ofNat n) else none

/-! ### Escapes -/

/-- Where the reader of an escape stands: behind the backslash, or in the digits. -/
inductive Escape where
  | letter
  | unit (value missing : Nat)

/-- One character of an escape: the character it completes, or how it goes on. -/
def Escape.step? : Escape → Char → Option (Char ⊕ Escape)
  | .letter, c =>
    match unitLength? c with
    | some n => some (.inr (.unit 0 n))
    | none => (unescape? c).map .inl
  | .unit value missing, c =>
    match Json.Decoder.hexValue? c with
    | none => none
    | some digit =>
      let value := 0x10 * value + digit
      if missing ≤ 1 then (scalar? value).map .inl else some (.inr (.unit value (missing - 1)))

/-! ### Strings within a line -/

/-- A string after its opening quote; `done` is what was read, last character first. -/
def lineString? (quote : Char) : Option Escape → Text → Text → Option (Text × Text)
  | _, _, [] => none
  | none, done, c :: cs =>
    if c = quote then some (done.reverse, cs)
    else if c = '\\' && escapes quote then lineString? quote (some .letter) done cs
    else if isPlain c then lineString? quote none (c :: done) cs
    else none
  | some escape, done, c :: cs =>
    match escape.step? c with
    | none => none
    | some (.inl d) => lineString? quote none (d :: done) cs
    | some (.inr next) => lineString? quote (some next) done cs

/-! ### Strings over several lines -/

/-- Where the reader of a block stands. -/
inductive BlockState where
  | plain
  /-- After quotes that may yet be the closing ones. -/
  | quotes (count : Nat)
  /-- After a carriage return, which only a line feed may follow. -/
  | carriage
  | escape (e : Escape)
  /-- After a backslash at the end of a line: blanks and line breaks are left out.
  `broken` says that the line has ended. -/
  | fold (broken : Bool)
  | foldCarriage

/-- A character that nothing before it bears on. -/
def blockStep? (quote : Char) (done : Text) (c : Char) : Option (BlockState × Text) :=
  if c = quote then some (.quotes 1, done)
  else if c = '\\' && escapes quote then some (.escape .letter, done)
  else if c = '\n' then some (.plain, '\n' :: done)
  else if c = '\r' then some (.carriage, done)
  else if isPlain c then some (.plain, c :: done)
  else none

/-- A block after its opening quotes. Three quotes close it, and up to two
before them belong to it. -/
def blockString? (quote : Char) : BlockState → Text → Text → Option (Text × Text)
  | .quotes count, done, [] =>
    if 3 ≤ count then some ((List.replicate (count - 3) quote ++ done).reverse, []) else none
  | _, _, [] => none
  | .quotes count, done, c :: cs =>
    if c = quote then
      if 4 ≤ count then some ((quote :: quote :: done).reverse, cs)
      else blockString? quote (.quotes (count + 1)) done cs
    else if 3 ≤ count then
      some ((List.replicate (count - 3) quote ++ done).reverse, c :: cs)
    else
      match blockStep? quote (List.replicate count quote ++ done) c with
      | none => none
      | some (next, done) => blockString? quote next done cs
  | .plain, done, c :: cs =>
    match blockStep? quote done c with
    | none => none
    | some (next, done) => blockString? quote next done cs
  | .carriage, done, c :: cs =>
    if c = '\n' then blockString? quote .plain ('\n' :: done) cs else none
  | .escape .letter, done, c :: cs =>
    if c = ' ' || c = '\t' then blockString? quote (.fold false) done cs
    else if c = '\n' then blockString? quote (.fold true) done cs
    else if c = '\r' then blockString? quote .foldCarriage done cs
    else
      match Escape.letter.step? c with
      | none => none
      | some (.inl d) => blockString? quote .plain (d :: done) cs
      | some (.inr next) => blockString? quote (.escape next) done cs
  | .escape escape, done, c :: cs =>
    match escape.step? c with
    | none => none
    | some (.inl d) => blockString? quote .plain (d :: done) cs
    | some (.inr next) => blockString? quote (.escape next) done cs
  | .fold broken, done, c :: cs =>
    if c = ' ' || c = '\t' then blockString? quote (.fold broken) done cs
    else if c = '\n' then blockString? quote (.fold true) done cs
    else if c = '\r' then blockString? quote .foldCarriage done cs
    else if broken then
      match blockStep? quote done c with
      | none => none
      | some (next, done) => blockString? quote next done cs
    else none
  | .foldCarriage, done, c :: cs =>
    if c = '\n' then blockString? quote (.fold true) done cs else none

/-- Without the line break that may follow the opening quotes of a block. -/
def dropBreak : Text → Text
  | '\n' :: cs => cs
  | '\r' :: '\n' :: cs => cs
  | cs => cs

/-- Any string, from its quotes on. -/
def string? (cs : Text) : Option (Text × Text) :=
  match cs with
  | a :: b :: c :: rest =>
    if a = '"' || a = '\'' then
      if b = a && c = a then blockString? a .plain [] (dropBreak rest)
      else lineString? a none [] (b :: c :: rest)
    else none
  | a :: rest => if a = '"' || a = '\'' then lineString? a none [] rest else none
  | [] => none

end NodeLogs.Toml
