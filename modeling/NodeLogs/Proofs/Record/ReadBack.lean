import NodeLogs.Proofs.Json.Nesting
import NodeLogs.Proofs.Record.JsonLine

/-! Reading lines of JSON with the decoder that payloads are read with. In a line the payload
is one container deeper than in its message, as it is a member there. So a payload that goes
to the limit was decoded, but the line that it is written in is not. -/

namespace NodeLogs

/-- The fields of a line's record are members of its payload. -/
theorem Line.exists_payload_of_field {p : Line.Parts} {key : CorrelationKey} {v : Json.Value}
    (h : p.toRecord.fields.get? key = some v) :
    ∃ o, p.toRecord.payload = some o ∧ (key.name, v) ∈ o := by
  cases hp : payload? p.msg with
  | none =>
    simp only [Line.Parts.toRecord, hp, Option.elim_none] at h
    cases key <;> cases h
  | some o =>
    simp only [Line.Parts.toRecord, hp, Option.elim_some, Correlation.get?_ofPayload] at h
    exact ⟨o, hp, Keyed.mem_of_lookup h⟩

namespace Record

/-- How deep the payload nests; a record without one has no container. -/
def payloadNesting (r : Record) : Nat :=
  r.payload.elim 0 fun p => (Json.Value.object p).nesting

/-- Beside the payload, a line holds nothing that nests deeper. -/
theorem nesting_membersFrom {r : Record} (o : Origin)
    (hfields : ∀ key, ∀ v ∈ r.fields.get? key, v.nesting ≤ r.payloadNesting) (d : Nat) :
    (Json.Value.object (r.membersFrom o)).nesting ≤ d + 1 ↔ r.payloadNesting ≤ d := by
  rw [Json.Value.nesting_object_le]
  constructor
  · intro h
    cases hp : r.payload with
    | none => simp [payloadNesting, hp]
    | some p =>
      have hmem : ("json".toList, Json.Value.object p) ∈ r.membersFrom o := by
        simp [membersFrom, members, hp]
      simpa [payloadNesting, hp] using h _ hmem
  · intro h m hm
    simp only [membersFrom, members, List.mem_append, List.mem_cons, List.not_mem_nil, or_false,
      Option.mem_toList, Option.map_eq_some_iff] at hm
    -- texts and numbers hold nothing
    rcases hm with (((hm | ⟨p, hp, rfl⟩) | ⟨e, -, rfl⟩) | hm) | hm
    · rcases hm with rfl | rfl | rfl | rfl | rfl | rfl <;> exact Nat.zero_le d
    · simpa [payloadNesting, hp] using h
    · exact Nat.zero_le d
    · obtain ⟨key, -, hv⟩ := Correlation.mem_members.mp hm
      exact Nat.le_trans (hfields key m.2 hv) h
    · rcases hm with rfl | rfl | rfl <;> exact Nat.zero_le d

end Record

namespace Line

variable {relevance : Relevance} {raw : Text} {r : Record}

/-- The fields of a parsed record nest less deep than its payload. -/
theorem nesting_field_le (h : parse? relevance raw = some r) (key : CorrelationKey) :
    ∀ v ∈ r.fields.get? key, v.nesting ≤ r.payloadNesting := by
  intro v hv
  obtain ⟨p, -, rfl⟩ := exists_parts_of_parse? h
  obtain ⟨o, ho, hmem⟩ := exists_payload_of_field hv
  rw [Record.payloadNesting, ho]
  exact Nat.le_of_lt (Json.Value.nesting_lt_of_mem hmem)

/-- The payload of a parsed record keeps to the limit of its decoder. -/
theorem payloadNesting_le (h : parse? relevance raw = some r) :
    r.payloadNesting ≤ Json.nestingLimit := by
  unfold Record.payloadNesting
  cases hp : r.payload with
  | none => exact Nat.zero_le _
  | some p => exact ((kept_of_parse? h).payload p hp).nesting_le

end Line

namespace Record

/-- The line of JSON of a parsed record is read back by the decoder of payloads, unless its
payload goes to the limit of that decoder. Then the line goes beyond, and is refused. -/
theorem decode?_jsonFrom {relevance : Relevance} {raw : Text} {r : Record}
    (hparse : Line.parse? relevance raw = some r) (o : Origin) :
    r.payloadNesting ≤ Json.nestingLimit ∧
      Json.decode? (r.jsonFrom o) =
        if r.payloadNesting < Json.nestingLimit then some (.object (r.membersFrom o)) else none := by
  have hline := ((Line.kept_of_parse? hparse).membersFrom o).decodeWithin?_render Json.nestingLimit
  have hnesting := nesting_membersFrom o (Line.nesting_field_le hparse) (Json.nestingLimit - 1)
  have hlimit : Json.nestingLimit - 1 + 1 = Json.nestingLimit := rfl
  have hbelow : r.payloadNesting ≤ Json.nestingLimit - 1 ↔ r.payloadNesting < Json.nestingLimit := by
    rw [← Nat.lt_succ_iff, Nat.succ_eq_add_one, hlimit]
  rw [hlimit, hbelow] at hnesting
  simp only [hnesting] at hline
  exact ⟨Line.payloadNesting_le hparse, hline⟩

/-- A vote with an array in so many others. -/
def nestedLine (arrays : Nat) : Text :=
  "2024-01-01T00:00:00Z [t] INFO a:1 Vote \x7b\"x\":".toList ++ List.replicate arrays '[' ++
    List.replicate arrays ']' ++ "\x7d\n".toList

theorem decode?_jsonFrom_nested : ∃ r, Line.parse? .consensus (nestedLine 125) = some r ∧
    r.payloadNesting = 126 ∧
      Json.decode? (r.jsonFrom voteOrigin) = some (.object (r.membersFrom voteOrigin)) := by
  have hnesting : (Line.parse? .consensus (nestedLine 125)).map payloadNesting = some 126 := by
    decide +kernel
  obtain ⟨r, hr, hpayload⟩ := Option.map_eq_some_iff.mp hnesting
  obtain ⟨-, hdecode⟩ := decode?_jsonFrom hr voteOrigin
  rw [if_pos (by rw [hpayload]; decide)] at hdecode
  exact ⟨r, hr, hpayload, hdecode⟩

/-- A payload in which containers stand as deep inside one another as a decoder takes them: it
is decoded, but the line that it is written in is not. -/
theorem decode?_jsonFrom_deepest : ∃ r, Line.parse? .consensus (nestedLine 126) = some r ∧
    r.payload.isSome ∧ Json.decode? (r.jsonFrom voteOrigin) = none := by
  have hdeepest : ((Line.parse? .consensus (nestedLine 126)).map fun r =>
      (r.payload.isSome, (Json.decode? (r.jsonFrom voteOrigin)).isNone)) = some (true, true) := by
    decide +kernel
  obtain ⟨r, hr, hpair⟩ := Option.map_eq_some_iff.mp hdeepest
  obtain ⟨hpayload, hnone⟩ := Prod.mk.inj hpair
  exact ⟨r, hr, hpayload, Option.isNone_iff_eq_none.mp hnone⟩

end Record

end NodeLogs
