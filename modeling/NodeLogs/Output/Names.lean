import NodeLogs.Text.Decimal

/-! Names of the output files: a pair for every node, and a pair for all of them. -/

namespace NodeLogs

/-- The two forms in which records are written. -/
inductive Form where
  | json
  | plain
  deriving DecidableEq

namespace Form

def ending : Form → Text
  | json => ".jsonl".toList
  | plain => ".log".toList

end Form

/-- The file of one node. -/
def nodeFileName (node : Nat) (form : Form) : Text :=
  "node".toList ++ decimal node ++ form.ending

/-- The file of all nodes. -/
def combinedFileName (form : Form) : Text :=
  "all_nodes".toList ++ form.ending

end NodeLogs
