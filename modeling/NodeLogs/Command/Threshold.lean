import NodeLogs.Report.Notice

/-! Which notices are shown. The environment may name a severity; else it is
for the command line to ask for details. -/

namespace NodeLogs

/-- The least grave notices that are shown; none are shown without one. -/
abbrev Threshold := Option Severity

namespace Threshold

def shows (t : Threshold) (n : Notice) : Bool :=
  t.any fun least => n.severity.rank ≤ least.rank

/-- A severity by its name in any case, or by its rank. -/
def ofName? (name : Text) : Option Threshold :=
  let name := String.ofList (name.map Char.toLower)
  if name = "off" || name = "0" then some none
  else if name = "error" || name = "1" then some (some .error)
  else if name = "warn" || name = "2" then some (some .warn)
  else if name = "info" || name = "3" then some (some .info)
  else if name = "debug" || name = "4" then some (some .debug)
  else if name = "trace" || name = "5" then some (some .debug)
  else none

/-- The threshold of a list of directives. The last that is a severity counts;
the others are about other programs. An empty list shows errors only. -/
def ofDirectives (list : Text) : Threshold :=
  match (splitAll ',' list).filter (!·.isEmpty) with
  | [] => some .error
  | directives => (directives.filterMap ofName?).getLast?.getD none

/-- The threshold for a command: what the environment says, if anything. -/
def choose (environment : Option Text) (verbose : Bool) : Threshold :=
  match environment with
  | some list => ofDirectives list
  | none => some (if verbose then .debug else .info)

end Threshold

end NodeLogs
