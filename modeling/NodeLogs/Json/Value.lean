import NodeLogs.Keyed
import NodeLogs.Text.Utf8

/-! JSON values. Numbers keep the text they were written in, and objects the
order of their members. -/

namespace NodeLogs.Json

inductive Value where
  | null
  | bool (b : Bool)
  | number (numeral : Text)
  | string (s : Text)
  | array (items : List Value)
  | object (members : List (Text × Value))
  deriving Inhabited

/-- An object: its members in order, each key once. -/
abbrev Object := List (Text × Value)

namespace Object

/-- The value at a key. -/
def get? (o : Object) (key : Text) : Option Value :=
  List.lookup key o

/-- Sets a key: in its place if it is there, else at the end. -/
def set (key : Text) (v : Value) (o : Object) : Object :=
  Keyed.set key v o

end Object

/-- The text of a string value. -/
def Value.asString? : Value → Option Text
  | .string s => some s
  | _ => none

end NodeLogs.Json
