import NodeLogs.Json.Printer

/-! Correlation fields: the members of a payload by which consensus events of
different nodes are matched up. -/

namespace NodeLogs

inductive CorrelationKey where
  | epoch | round | reason | remotePeer | blockRound | blockEpoch | blockAuthor
  deriving DecidableEq, Repr

namespace CorrelationKey

/-- All keys, in the order in which fields are written. -/
def all : List CorrelationKey :=
  [epoch, round, reason, remotePeer, blockRound, blockEpoch, blockAuthor]

/-- The member of a payload that holds the field. -/
def name : CorrelationKey → Text
  | epoch => "epoch".toList
  | round => "round".toList
  | reason => "reason".toList
  | remotePeer => "remote_peer".toList
  | blockRound => "block_round".toList
  | blockEpoch => "block_epoch".toList
  | blockAuthor => "block_author".toList

def ofName? (name : Text) : Option CorrelationKey :=
  all.find? (·.name = name)

end CorrelationKey

/-- The fields that are present, each a value just as the node logged it. -/
structure Correlation where
  epoch : Option Json.Value := none
  round : Option Json.Value := none
  reason : Option Json.Value := none
  remotePeer : Option Json.Value := none
  blockRound : Option Json.Value := none
  blockEpoch : Option Json.Value := none
  blockAuthor : Option Json.Value := none

namespace Correlation

def get? (fields : Correlation) : CorrelationKey → Option Json.Value
  | .epoch => fields.epoch
  | .round => fields.round
  | .reason => fields.reason
  | .remotePeer => fields.remotePeer
  | .blockRound => fields.blockRound
  | .blockEpoch => fields.blockEpoch
  | .blockAuthor => fields.blockAuthor

/-- The field under the name of its payload member; other names hold nothing. -/
def getNamed? (fields : Correlation) (name : Text) : Option Json.Value :=
  (CorrelationKey.ofName? name).bind fields.get?

/-- The fields of a payload: a member that is there counts, also if it is null. -/
def ofPayload (payload : Json.Object) : Correlation where
  epoch := payload.get? CorrelationKey.epoch.name
  round := payload.get? CorrelationKey.round.name
  reason := payload.get? CorrelationKey.reason.name
  remotePeer := payload.get? CorrelationKey.remotePeer.name
  blockRound := payload.get? CorrelationKey.blockRound.name
  blockEpoch := payload.get? CorrelationKey.blockEpoch.name
  blockAuthor := payload.get? CorrelationKey.blockAuthor.name

theorem get?_ofPayload (payload : Json.Object) (key : CorrelationKey) :
    (ofPayload payload).get? key = payload.get? key.name := by
  cases key <;> rfl

/-- The present fields as members of an object. -/
def members (fields : Correlation) : Json.Object :=
  CorrelationKey.all.filterMap fun key => (fields.get? key).map fun v => (key.name, v)

def isEmpty (fields : Correlation) : Bool :=
  CorrelationKey.all.all fun key => (fields.get? key).isNone

end Correlation

end NodeLogs
