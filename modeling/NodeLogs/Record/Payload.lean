import NodeLogs.Json.Decoder
import NodeLogs.Text.Blank

/-! The payload of a message: the widest span of it that begins with an opening
and ends with a closing brace, if that is one JSON object. -/

namespace NodeLogs

/-- From the first opening brace through the last closing brace. -/
def payloadSpan? (msg : Text) : Option Text :=
  match Text.dropEndWhile (· ≠ '}') (msg.dropWhile (· ≠ '{')) with
  | [] => none
  | span => some span

def payload? (msg : Text) : Option Json.Object :=
  (payloadSpan? msg).bind Json.decodeObject?

/-- The name of the event, if the payload gives one as a string. -/
def eventOf? (payload : Json.Object) : Option Text :=
  (payload.get? "event".toList).bind Json.Value.asString?

end NodeLogs
