import NodeLogs.Text.Decimal
import NodeLogs.Text.Utf8

/-! Names of node logs: `stdout_7.log` and `stderr_7.log`, in any case, hold
what node 7 wrote. -/

namespace NodeLogs

namespace NodeLog

/-- Letters up to case; the long s is a form of `s`. -/
def fold (c : Char) : Char :=
  if c = '\u017f' then 's'
  else if 'A' ≤ c && c ≤ 'Z' then Char.ofNat (c.toNat + 0x20)
  else c

/-- The two streams of a node. -/
def streams : List Text := ["stdout".toList, "stderr".toList]

def ending : Text := ".log".toList

/-- The node whose log has this name: a stream, an underscore, the number and the ending. -/
def nodeOfText? (name : Text) : Option Nat :=
  let (stream, rest) := name.splitAt 6
  match rest with
  | '_' :: rest =>
    let (digits, tail) := rest.span isAsciiDigit
    if streams.contains (stream.map fold) && tail.map fold = ending then readWord? digits else none
  | _ => none

/-- The node whose log has this name; a name that is no text is none. -/
def nodeOfName? (name : Bytes) : Option Nat :=
  (Utf8.decode? name).bind nodeOfText?

end NodeLog

end NodeLogs
