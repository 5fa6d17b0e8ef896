import NodeLogs.Text.Basic

/-! Blank characters: the Unicode property White_Space. -/

namespace NodeLogs

/-- The 25 characters of White_Space. -/
def isBlank (c : Char) : Bool :=
  let n := c.toNat
  (0x9 ≤ n && n ≤ 0xD) || n == 0x20 || n == 0x85 || n == 0xA0 || n == 0x1680 ||
    (0x2000 ≤ n && n ≤ 0x200A) || n == 0x2028 || n == 0x2029 || n == 0x202F || n == 0x205F ||
    n == 0x3000

namespace Text

def dropEndWhile (p : Char → Bool) (cs : Text) : Text :=
  (cs.reverse.dropWhile p).reverse

/-- Blank characters taken off both ends. -/
def trim (cs : Text) : Text :=
  dropEndWhile isBlank (cs.dropWhile isBlank)

end Text

end NodeLogs
