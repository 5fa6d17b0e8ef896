import NodeLogs.Line.Parser
import NodeLogs.Proofs.Json.Spelling
import NodeLogs.Proofs.Output.Names

/-! The line of JSON of a record. It is one line, an object in the grammar, whose
members have names of their own in a fixed order; and the record and its origin can
be read back from it. Payloads are part of it as they were decoded, so their numerals
and the order of their keys come back too. -/

namespace NodeLogs

/-! ### Numbers -/

theorem digitsValue_decimal (n : Nat) : digitsValue (decimal n) = n :=
  Nat.ofDigitChars_ten_toDigits

theorem isAsciiDigit_of_isDigit {c : Char} (h : c.isDigit = true) : isAsciiDigit c = true := by
  simp only [Char.isDigit, Bool.and_eq_true, decide_eq_true_eq] at h
  simp only [isAsciiDigit, Bool.and_eq_true, decide_eq_true_eq]
  exact h

/-- Only the numeral of zero begins with a zero. -/
theorem decimal_zero_head {n : Nat} {rest : Text} (h : decimal n = '0' :: rest) : rest = [] := by
  induction n using Nat.strongRecOn generalizing rest with
  | _ n ih =>
    unfold decimal at h ih
    rw [Nat.toDigits_eq_if (by decide)] at h
    split at h
    · exact (List.cons.inj h).2.symm
    next hn =>
      -- the digits before the last one would be those of zero
      obtain ⟨first, digits, hdigits⟩ :=
        List.exists_cons_of_ne_nil (Nat.toDigits_ne_nil : Nat.toDigits 10 (n / 10) ≠ [])
      rw [hdigits, List.cons_append] at h
      obtain ⟨rfl, -⟩ := List.cons.inj h
      have hnil := ih (n / 10) (by omega) hdigits
      have hvalue := digitsValue_decimal (n / 10)
      rw [decimal, hdigits, hnil] at hvalue
      have hzero : digitsValue ['0'] = 0 := rfl
      omega

namespace Json

theorem isNumeral_decimal (n : Nat) : IsNumeral (decimal n) := by
  have hwhole : IsWhole (decimal n) :=
    ⟨⟨Nat.toDigits_ne_nil, fun c hc => isAsciiDigit_of_isDigit (isDigit_of_mem_decimal hc)⟩,
      fun rest h => decimal_zero_head h⟩
  simpa [IsNumeral] using SpellsNumeral.mk (.inl rfl) hwhole .none .none

/-! ### No line feed -/

theorem feed_not_mem_escapeChar (c : Char) : '\n' ∉ escapeChar c := by
  by_cases hcontrol : c.toNat < 0x20
  · -- the digits of a code unit are among sixteen
    have hdigits : '\n' ≠ hexDigit (c.toNat / 0x10) ∧ '\n' ≠ hexDigit (c.toNat % 0x10) := by
      revert hcontrol
      generalize c.toNat = n
      revert n
      decide
    unfold escapeChar
    repeat' split
    all_goals simp [hdigits]
  · unfold escapeChar
    repeat' split
    all_goals simp
    rintro rfl
    exact hcontrol (by decide)

theorem feed_not_mem_quote (s : Text) : '\n' ∉ quote s := by
  simp only [quote, List.mem_append, List.mem_cons, List.mem_flatMap, List.not_mem_nil, or_false]
  rintro ((h | ⟨c, -, h⟩) | h)
  · cases h
  · exact feed_not_mem_escapeChar c h
  · cases h

/-- What is printed for a kept value is one line. -/
theorem Value.Kept.feed_not_mem {d : Nat} {v : Value} (h : v.Kept d) : '\n' ∉ v.render := by
  induction h with
  | null => decide
  | bool b => cases b <;> decide
  | number h => exact fun hmem => absurd (h.isNumeralChar hmem) (by decide)
  | string s => exact feed_not_mem_quote s
  | array _ ih =>
    rw [Value.render, renderItems_eq_map]
    simp only [List.mem_append, List.mem_cons, List.not_mem_nil, or_false]
    rintro ((h | h) | h)
    · cases h
    · rcases mem_commaSeparated h with h | ⟨piece, hpiece, h⟩
      · cases h
      · obtain ⟨v, hv, rfl⟩ := List.mem_map.mp hpiece
        exact ih v hv h
    · cases h
  | object _ _ ih =>
    rw [Value.render, renderMembers_eq_map]
    simp only [List.mem_append, List.mem_cons, List.not_mem_nil, or_false]
    rintro ((h | h) | h)
    · cases h
    · rcases mem_commaSeparated h with h | ⟨piece, hpiece, h⟩
      · cases h
      · obtain ⟨m, hm, rfl⟩ := List.mem_map.mp hpiece
        rcases List.mem_append.mp h with h | h
        · exact feed_not_mem_quote m.1 h
        · rcases List.mem_cons.mp h with h | h
          · cases h
          · exact ih m hm h
    · cases h

/-- The values of a kept object are kept. -/
theorem Value.Kept.member {d : Nat} {o : Object} (h : (Value.object o).Kept d) :
    ∀ m ∈ o, m.2.Kept d := by
  cases h with
  | object _ hvalues => exact fun m hm => (hvalues m hm).mono (Nat.le_succ _)

end Json

/-! ### Correlation fields as members -/

namespace Correlation

theorem keys_members (fields : Correlation) (present : Text → Bool)
    (h : ∀ key : CorrelationKey, present key.name = (fields.get? key).isSome) :
    fields.members.map Prod.fst = (CorrelationKey.all.map CorrelationKey.name).filter present := by
  unfold members
  induction CorrelationKey.all with
  | nil => rfl
  | cons key keys ih =>
    rw [List.filterMap_cons, List.map_cons, List.filter_cons, h key]
    cases fields.get? key <;> simpa using ih

theorem mem_members {fields : Correlation} {m : Text × Json.Value} :
    m ∈ fields.members ↔ ∃ key : CorrelationKey, m.1 = key.name ∧ fields.get? key = some m.2 := by
  simp only [members, List.mem_filterMap, Option.map_eq_some_iff]
  constructor
  · rintro ⟨key, -, v, hv, rfl⟩
    exact ⟨key, rfl, hv⟩
  · rintro ⟨key, hname, hv⟩
    exact ⟨key, by cases key <;> decide, m.2, hv, by rw [← hname]⟩

theorem ext {fields others : Correlation} (h : ∀ key, fields.get? key = others.get? key) :
    fields = others := by
  cases fields
  cases others
  simp only [Correlation.mk.injEq]
  exact ⟨h .epoch, h .round, h .reason, h .remotePeer, h .blockRound, h .blockEpoch, h .blockAuthor⟩

end Correlation

namespace Record

/-! ### Names and their order -/

/-- The names of all members that a line can have, in their order. -/
def memberNames : List Text :=
  ["ts".toList, "thread".toList, "level".toList, "target".toList, "line".toList, "msg".toList,
    "json".toList, "event".toList, "epoch".toList, "round".toList, "reason".toList,
    "remote_peer".toList, "block_round".toList, "block_epoch".toList, "block_author".toList,
    "source_file".toList, "run_dir".toList, "node".toList]

theorem memberNames_nodup : memberNames.Nodup := by
  decide +kernel

/-- Does the record have what is written under a name? A field that is null is there. -/
def has (r : Record) (name : Text) : Bool :=
  if name = "json".toList then r.payload.isSome
  else if name = "event".toList then r.event.isSome
  else match CorrelationKey.ofName? name with
    | some key => (r.fields.get? key).isSome
    | none => true

theorem has_name (r : Record) (key : CorrelationKey) :
    r.has key.name = (r.fields.get? key).isSome := by
  cases key <;> rfl

/-- The members are those that the record has, in the order of their names. -/
theorem keys_membersFrom (r : Record) (o : Origin) :
    (r.membersFrom o).map Prod.fst = memberNames.filter r.has := by
  have hpayload : (r.payload.map fun p => ("json".toList, Json.Value.object p)).toList.map Prod.fst =
      ["json".toList].filter r.has := by
    have hhas : r.has "json".toList = r.payload.isSome := rfl
    rw [List.filter_cons, List.filter_nil, hhas]
    cases r.payload <;> rfl
  have hevent : (r.event.map fun e => ("event".toList, Json.Value.string e)).toList.map Prod.fst =
      ["event".toList].filter r.has := by
    have hhas : r.has "event".toList = r.event.isSome := rfl
    rw [List.filter_cons, List.filter_nil, hhas]
    cases r.event <;> rfl
  have hnames : memberNames =
      ["ts".toList, "thread".toList, "level".toList, "target".toList, "line".toList,
        "msg".toList] ++ ["json".toList] ++ ["event".toList] ++
      CorrelationKey.all.map CorrelationKey.name ++
      ["source_file".toList, "run_dir".toList, "node".toList] := rfl
  rw [hnames]
  simp only [membersFrom, members, List.map_append, List.filter_append, hpayload, hevent,
    Correlation.keys_members r.fields r.has r.has_name]
  rfl

theorem keys_nodup (r : Record) (o : Origin) : ((r.membersFrom o).map Prod.fst).Nodup := by
  rw [keys_membersFrom]
  exact memberNames_nodup.filter r.has

/-! ### Reading a record back -/

/-- The record and its origin, from the members of an object. -/
def ofMembers? (o : Json.Object) : Option (Record × Origin) := do
  let stamp ← (o.get? "ts".toList).bind Json.Value.asString?
  let thread ← (o.get? "thread".toList).bind Json.Value.asString?
  let level ← (o.get? "level".toList).bind Json.Value.asString?
  let target ← (o.get? "target".toList).bind Json.Value.asString?
  let line ← (o.get? "line".toList).bind asNat?
  let msg ← (o.get? "msg".toList).bind Json.Value.asString?
  let source ← (o.get? "source_file".toList).bind Json.Value.asString?
  let run ← (o.get? "run_dir".toList).bind Json.Value.asString?
  let node ← (o.get? "node".toList).bind asNat?
  let payload := (o.get? "json".toList).bind asObject?
  let event := (o.get? "event".toList).bind Json.Value.asString?
  return ({ stamp, thread, level, target, line, msg, payload, event, fields := .ofPayload o },
    { source, run, node })
where
  asNat? : Json.Value → Option Nat
    | .number numeral => some (digitsValue numeral)
    | _ => none
  asObject? : Json.Value → Option Json.Object
    | .object o => some o
    | _ => none

/-- The value under a name is what is written there, if the record has it. -/
theorem get?_membersFrom (r : Record) (o : Origin) {name : Text} {v : Option Json.Value}
    (hmem : ∀ w, v = some w → (name, w) ∈ r.membersFrom o) (hhas : v = none → r.has name = false) :
    (r.membersFrom o).get? name = v := by
  cases v with
  | some w => exact Keyed.lookup_of_mem (r.keys_nodup o) (hmem w rfl)
  | none =>
    refine Keyed.lookup_eq_none fun hkey => ?_
    rw [keys_membersFrom, List.mem_filter, hhas rfl] at hkey
    cases hkey.2

/-- What is written for a record and its origin gives both back. -/
theorem ofMembers?_membersFrom (r : Record) (o : Origin) :
    ofMembers? (r.membersFrom o) = some (r, o) := by
  have hget {name : Text} {w : Json.Value} (hmem : (name, w) ∈ r.membersFrom o) :
      (r.membersFrom o).get? name = some w :=
    r.get?_membersFrom o (fun w' hw => Option.some.inj hw ▸ hmem) nofun
  have hpayload : (r.membersFrom o).get? "json".toList = r.payload.map .object :=
    r.get?_membersFrom o (fun w hw => by
      obtain ⟨p, hp, rfl⟩ := Option.map_eq_some_iff.mp hw
      simp [membersFrom, members, hp])
      fun hnone => by
        have hhas : r.has "json".toList = r.payload.isSome := rfl
        rw [hhas, Option.map_eq_none_iff.mp hnone]
        rfl
  have hevent : (r.membersFrom o).get? "event".toList = r.event.map .string :=
    r.get?_membersFrom o (fun w hw => by
      obtain ⟨e, he, rfl⟩ := Option.map_eq_some_iff.mp hw
      simp [membersFrom, members, he])
      fun hnone => by
        have hhas : r.has "event".toList = r.event.isSome := rfl
        rw [hhas, Option.map_eq_none_iff.mp hnone]
        rfl
  have hfields : Correlation.ofPayload (r.membersFrom o) = r.fields := by
    refine Correlation.ext fun key => ?_
    rw [Correlation.get?_ofPayload]
    refine r.get?_membersFrom o (fun w hw => ?_) fun hnone => by rw [has_name, hnone]; rfl
    have hmem : (key.name, w) ∈ r.fields.members := Correlation.mem_members.mpr ⟨key, rfl, hw⟩
    simp [membersFrom, members, hmem]
  have hevent' : (r.event.map Json.Value.string).bind Json.Value.asString? = r.event := by
    cases r.event <;> rfl
  have hpayload' : (r.payload.map Json.Value.object).bind ofMembers?.asObject? = r.payload := by
    cases r.payload <;> rfl
  simp only [ofMembers?, hpayload, hevent, hfields, hevent', hpayload']
  rw [hget (w := .string r.stamp) (by simp [membersFrom, members]),
    hget (w := .string r.thread) (by simp [membersFrom, members]),
    hget (w := .string r.level) (by simp [membersFrom, members]),
    hget (w := .string r.target) (by simp [membersFrom, members]),
    hget (w := .ofNat r.line) (by simp [membersFrom, members]),
    hget (w := .string r.msg) (by simp [membersFrom, members]),
    hget (w := .string o.source) (by simp [membersFrom]),
    hget (w := .string o.run) (by simp [membersFrom]),
    hget (w := .ofNat o.node) (by simp [membersFrom])]
  simp [Json.Value.asString?, ofMembers?.asNat?, Json.Value.ofNat, digitsValue_decimal]

/-! ### Records whose payload was decoded -/

/-- The payload and the fields are values as they are kept. -/
structure Kept (d : Nat) (r : Record) : Prop where
  payload : ∀ p ∈ r.payload, (Json.Value.object p).Kept d
  fields : ∀ key, ∀ v ∈ r.fields.get? key, v.Kept d

theorem Kept.membersFrom {d : Nat} {r : Record} (h : r.Kept d) (o : Origin) :
    (Json.Value.object (r.membersFrom o)).Kept (d + 1) := by
  refine .object (r.keys_nodup o) fun m hm => ?_
  simp only [Record.membersFrom, members, List.mem_append, List.mem_cons, List.not_mem_nil, or_false,
    Option.mem_toList, Option.map_eq_some_iff] at hm
  rcases hm with ((((rfl | rfl | rfl | rfl | rfl | rfl) | ⟨p, hp, rfl⟩) | ⟨e, -, rfl⟩) | hm) |
    (rfl | rfl | rfl)
  · exact .string _
  · exact .string _
  · exact .string _
  · exact .string _
  · exact .number (Json.isNumeral_decimal _)
  · exact .string _
  · exact h.payload p hp
  · exact .string _
  · obtain ⟨key, -, hv⟩ := Correlation.mem_members.mp hm
    exact h.fields key m.2 hv
  · exact .string _
  · exact .string _
  · exact .number (Json.isNumeral_decimal _)

theorem kept_toRecord (p : Line.Parts) : p.toRecord.Kept Json.nestingLimit := by
  have hpayload : ∀ o ∈ payload? p.msg, (Json.Value.object o).Kept Json.nestingLimit :=
    fun o ho => by
      obtain ⟨span, -, hspan⟩ := Option.bind_eq_some_iff.mp ho
      exact Json.kept_of_decodeObject? hspan
  refine ⟨hpayload, fun key v hv => ?_⟩
  cases hp : payload? p.msg with
  | none =>
    simp only [Line.Parts.toRecord, hp, Option.elim_none] at hv
    cases key <;> cases hv
  | some o =>
    simp only [Line.Parts.toRecord, hp, Option.elim_some, Correlation.get?_ofPayload] at hv
    exact (hpayload o hp).member _ (Keyed.mem_of_lookup hv)

end Record

/-- A record that is parsed is that of a line in its parts. -/
theorem Line.exists_parts_of_parse? {relevance : Relevance} {raw : Text} {r : Record}
    (h : Line.parse? relevance raw = some r) : ∃ p, Line.parts? raw = some p ∧ p.toRecord = r := by
  simp only [Line.parse?, Option.bind_eq_bind, Option.bind_eq_some_iff] at h
  obtain ⟨p, hp, h⟩ := h
  split at h
  · exact ⟨p, hp, Option.some.inj h⟩
  · cases h

/-- What is parsed is kept. -/
theorem Line.kept_of_parse? {relevance : Relevance} {raw : Text} {r : Record}
    (h : Line.parse? relevance raw = some r) : r.Kept Json.nestingLimit := by
  obtain ⟨p, -, rfl⟩ := Line.exists_parts_of_parse? h
  exact Record.kept_toRecord p

namespace Record

theorem Kept.decode_jsonFrom {d : Nat} {r : Record} (h : r.Kept d) (o : Origin) :
    Json.decodeUnbounded? (r.jsonFrom o) = some (.object (r.membersFrom o)) :=
  (h.membersFrom o).decodeUnbounded?

/-- The line determines the record and its origin. -/
theorem Kept.jsonFrom_injective {d d' : Nat} {r r' : Record} (h : r.Kept d) (h' : r'.Kept d')
    {o o' : Origin} (heq : r.jsonFrom o = r'.jsonFrom o') : r = r' ∧ o = o' := by
  have hmembers : r.membersFrom o = r'.membersFrom o' := by
    have hdecode := h.decode_jsonFrom o
    rw [heq, h'.decode_jsonFrom o'] at hdecode
    exact (Json.Value.object.inj (Option.some.inj hdecode)).symm
  have hpair := r.ofMembers?_membersFrom o
  rw [hmembers, r'.ofMembers?_membersFrom o'] at hpair
  obtain ⟨hr, ho⟩ := Prod.mk.inj (Option.some.inj hpair)
  exact ⟨hr.symm, ho.symm⟩

/-- The line of JSON of a parsed record is one line, and an object in the grammar. Whatever members
the text can be read as being written with, their keys are those of the names in their order that
the record has, each name once. Decoded without a limit it gives the members back, and they the
record and its origin; so no other record and no other origin has this line. -/
theorem jsonFrom_determines {relevance : Relevance} {raw : Text} {r : Record}
    (hparse : Line.parse? relevance raw = some r) (o : Origin) :
    '\n' ∉ r.jsonFrom o ∧
      (∃ depth, Json.Spells depth (r.jsonFrom o) (.object (r.membersFrom o))) ∧
      (∃ depth, Json.SpellsMembers depth (r.jsonFrom o) (r.membersFrom o)) ∧
      (∀ depth written, Json.SpellsMembers depth (r.jsonFrom o) written →
        written = r.membersFrom o ∧ written.map Prod.fst = memberNames.filter r.has ∧
          (written.map Prod.fst).Nodup) ∧
      ((r.membersFrom o).map Prod.fst = memberNames.filter r.has ∧ memberNames.Nodup) ∧
      Json.decodeUnbounded? (r.jsonFrom o) = some (.object (r.membersFrom o)) ∧
      ofMembers? (r.membersFrom o) = some (r, o) ∧
      ∀ (relevance' : Relevance) (raw' : Text) (r' : Record) (o' : Origin),
        Line.parse? relevance' raw' = some r' → r'.jsonFrom o' = r.jsonFrom o → r' = r ∧ o' = o := by
  have hkept := Line.kept_of_parse? hparse
  have hmembers := hkept.membersFrom o
  have hwritten := hmembers.spellsMembers
  refine ⟨hmembers.feed_not_mem, ⟨_, hmembers.spells⟩, ⟨_, hwritten⟩, fun depth written h => ?_,
    ⟨r.keys_membersFrom o, memberNames_nodup⟩, hkept.decode_jsonFrom o, r.ofMembers?_membersFrom o,
    ?_⟩
  · obtain rfl := h.unique hwritten
    exact ⟨rfl, r.keys_membersFrom o, r.keys_nodup o⟩
  · intro relevance' raw' r' o' hparse' heq
    exact (Line.kept_of_parse? hparse').jsonFrom_injective hkept heq

/-- A vote with an epoch that is null, and with an exponent and an escape in its payload. -/
def voteLine : Text :=
  "2024-01-01T00:00:00Z [t] INFO a:1 \x7b\"event\":\"Vote\",\"epoch\":null,\"x\":[1E5,\"\\u0041\\n\"]\x7d\n".toList

def voteOrigin : Origin :=
  ⟨"r/stdout_0.log".toList, "r".toList, 0⟩

theorem jsonFrom_determines_vote :
    ∃ r, Line.parse? .consensus voteLine = some r ∧
      (r.membersFrom voteOrigin).map Prod.fst =
        ["ts".toList, "thread".toList, "level".toList, "target".toList, "line".toList, "msg".toList,
          "json".toList, "event".toList, "epoch".toList, "source_file".toList, "run_dir".toList,
          "node".toList] ∧
      (∃ depth, Json.SpellsMembers depth (r.jsonFrom voteOrigin) (r.membersFrom voteOrigin)) ∧
      Json.decodeUnbounded? (r.jsonFrom voteOrigin) = some (.object (r.membersFrom voteOrigin)) ∧
      ofMembers? (r.membersFrom voteOrigin) = some (r, voteOrigin) := by
  have hsome : (Line.parse? .consensus voteLine).isSome = true := by decide +kernel
  obtain ⟨r, hr⟩ := Option.isSome_iff_exists.mp hsome
  obtain ⟨-, -, hwritten, -, -, hdecode, hback, -⟩ := jsonFrom_determines hr voteOrigin
  have hkeys : ((Line.parse? .consensus voteLine).map fun r =>
      (r.membersFrom voteOrigin).map Prod.fst) =
        some ["ts".toList, "thread".toList, "level".toList, "target".toList, "line".toList,
          "msg".toList, "json".toList, "event".toList, "epoch".toList, "source_file".toList,
          "run_dir".toList, "node".toList] := by decide +kernel
  rw [hr] at hkeys
  exact ⟨r, hr, Option.some.inj hkeys, hwritten, hdecode, hback⟩

end Record

end NodeLogs
