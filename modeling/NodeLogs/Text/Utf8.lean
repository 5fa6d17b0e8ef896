import NodeLogs.Text.Basic

/-! UTF-8. Every text has one encoding; every byte string has a reading, in
which a piece that encodes nothing stands for one replacement character. The
piece is as long as it could still have become a character: the reader takes
bytes one at a time and gives up on the first that does not continue. -/

namespace NodeLogs

/-- A byte string. -/
abbrev Bytes := List UInt8

/-- What a piece that encodes nothing is read as. -/
def replacement : Char := '\ufffd'

namespace Utf8

/-! ### Encoding -/

def continuation (n : Nat) : UInt8 :=
  UInt8.ofNat (0x80 + n % 0x40)

/-- One to four bytes. -/
def encodeChar (c : Char) : Bytes :=
  let n := c.toNat
  if n < 0x80 then [UInt8.ofNat n]
  else if n < 0x800 then [UInt8.ofNat (0xC0 + n / 0x40), continuation n]
  else if n < 0x10000 then
    [UInt8.ofNat (0xE0 + n / 0x1000), continuation (n / 0x40), continuation n]
  else
    [UInt8.ofNat (0xF0 + n / 0x40000), continuation (n / 0x1000), continuation (n / 0x40),
      continuation n]

def encode (cs : Text) : Bytes :=
  cs.flatMap encodeChar

@[simp] theorem encode_nil : encode [] = [] := rfl

@[simp] theorem encode_cons (c : Char) (cs : Text) :
    encode (c :: cs) = encodeChar c ++ encode cs := rfl

@[simp] theorem encode_append (cs ds : Text) : encode (cs ++ ds) = encode cs ++ encode ds := by
  simp [encode]

/-! ### Reading byte by byte -/

/-- Between two bytes: nothing is open, or a character has begun, of which
`missing` bytes are to come and the next lies between `low` and `high`. -/
inductive Reader where
  | idle
  | within (value missing : Nat) (low high : UInt8)
  deriving DecidableEq, Repr

namespace Reader

/-- A byte that starts afresh. -/
def start (b : UInt8) : Reader × Text :=
  if b < 0x80 then (idle, [Char.ofNat b.toNat])
  else if 0xC2 ≤ b && b ≤ 0xDF then (within (b.toNat - 0xC0) 1 0x80 0xBF, [])
  else if b = 0xE0 then (within 0 2 0xA0 0xBF, [])
  else if b = 0xED then (within 0xD 2 0x80 0x9F, [])
  else if 0xE1 ≤ b && b ≤ 0xEF then (within (b.toNat - 0xE0) 2 0x80 0xBF, [])
  else if b = 0xF0 then (within 0 3 0x90 0xBF, [])
  else if 0xF1 ≤ b && b ≤ 0xF3 then (within (b.toNat - 0xF0) 3 0x80 0xBF, [])
  else if b = 0xF4 then (within 4 3 0x80 0x8F, [])
  else (idle, [replacement])

/-- Takes one byte; says what characters are complete with it. -/
def push : Reader → UInt8 → Reader × Text
  | idle, b => start b
  | within value missing low high, b =>
    if low ≤ b && b ≤ high then
      let value := 0x40 * value + (b.toNat - 0x80)
      if missing ≤ 1 then (idle, [Char.ofNat value])
      else (within value (missing - 1) 0x80 0xBF, [])
    else
      let (next, cs) := start b
      (next, replacement :: cs)

/-- What is read at the end of the bytes. -/
def finish : Reader → Text
  | idle => []
  | within .. => [replacement]

/-- Reads a byte string to its end; `done` holds the characters so far, last first. -/
def run (reader : Reader) (done : Text) : Bytes → Text
  | [] => (reader.finish.reverseAux done).reverse
  | b :: bs =>
    let (next, cs) := reader.push b
    run next (cs.reverseAux done) bs

/-- What has been read stands in front of the reading of the rest. -/
theorem run_eq_append (reader : Reader) (done : Text) (bs : Bytes) :
    reader.run done bs = done.reverse ++ reader.run [] bs := by
  induction bs generalizing reader done with
  | nil => simp [run, List.reverseAux_eq]
  | cons b bs ih =>
    simp only [run]
    rw [ih _ ((reader.push b).2.reverseAux done), ih _ ((reader.push b).2.reverseAux [])]
    simp [List.reverseAux_eq]

@[simp] theorem run_nil (reader : Reader) : reader.run [] [] = reader.finish := by
  simp [run, List.reverseAux_eq]

theorem run_cons (reader : Reader) (b : UInt8) (bs : Bytes) :
    reader.run [] (b :: bs) = (reader.push b).2 ++ (reader.push b).1.run [] bs := by
  show (reader.push b).1.run ((reader.push b).2.reverseAux []) bs = _
  rw [run_eq_append, List.reverseAux_eq]
  simp

end Reader

/-- The reading of any byte string. -/
def decodeLossy (bs : Bytes) : Text :=
  Reader.idle.run [] bs

/-- The text that the bytes encode, if they encode one: its encoding gives them back. -/
def decode? (bs : Bytes) : Option Text :=
  let cs := decodeLossy bs
  if encode cs = bs then some cs else none

end Utf8

end NodeLogs
