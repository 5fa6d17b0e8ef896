import NodeLogs.Text.Basic

/-! Relevance: a line counts if the name of its event, or its message, contains
one of the keywords. Case matters, word boundaries do not. -/

namespace NodeLogs

/-- A list of keywords, none of them empty. -/
structure Relevance where
  keywords : List Text

namespace Relevance

/-- Empty keywords are left out. -/
def ofKeywords (keywords : List Text) : Relevance :=
  ⟨keywords.filter fun keyword => !keyword.isEmpty⟩

/-- Does the text contain a keyword? -/
def isMatch (relevance : Relevance) (cs : Text) : Bool :=
  relevance.keywords.any fun keyword => Text.hasPart keyword cs

def accepts (relevance : Relevance) (event : Option Text) (msg : Text) : Bool :=
  event.any relevance.isMatch || relevance.isMatch msg

/-- How many keywords there are, as diagnostics show it. -/
def summary (relevance : Relevance) : String :=
  "RelevanceFilter \x7b keywords: " ++ toString relevance.keywords.length ++ " \x7d"

/-- The names and phrases of the consensus protocol. -/
def consensusKeywords : List String :=
  ["NewEpoch", "NewRound", "CommitViaBlock", "Timeout", "RoundTimeout", "ReceiveRoundTimeout",
    "Vote", "VoteNIL", "Propose", "OptPropose", "ReceiveProposal", "ReceiveOptProposal",
    "ProcessOptProposal", "ReceiveSyncInfo", "SyncInfo", "ReceiveNewCertificate",
    "NetworkReceiveProposal", "NetworkReceiveOptProposal", "NetworkReceiveSyncInfo", "Broadcast",
    "BroadcastOrderVote", "BroadcastRandShareFastPath", "ReceiveOrderVote", "OrderVote",
    "ReceiveVote", "Signed ledger info", "Receive commit vote", "Receive ordered block",
    "leader", "Leader", "proposer", "Proposer", "proposer_election", "rotating_proposer",
    "pacemaker", "Pacemaker"]

def consensus : Relevance :=
  ofKeywords (consensusKeywords.map String.toList)

end Relevance

end NodeLogs
