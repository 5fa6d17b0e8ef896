import Mathlib.Data.List.Infix
import NodeLogs.Proofs.Record.Spans

/-! Events that are in their messages. What an object's members hold is spelled by pieces of the
object's text, and a string without escapes is its own spelling. So the name of an event is a
piece of the message, unless it is written with an escape, and a keyword in the event is a keyword
in the message. -/

namespace NodeLogs

namespace Json

/-- A string that is written without escapes is what is written. -/
theorem SpellsString.eq_of_not_mem {cs s : Text} (h : SpellsString cs s) (hslash : '\\' ∉ cs) :
    s = cs := by
  induction h with
  | nil => rfl
  | plain _ _ _ _ ih => rw [ih fun hmem => hslash (List.mem_cons_of_mem _ hmem)]
  | letter | unit | halves => exact absurd List.mem_cons_self hslash

theorem infix_commaSeparated {piece : Text} {pieces : List Text} (h : piece ∈ pieces) :
    piece <:+: commaSeparated pieces := by
  obtain ⟨first, rest, rfl⟩ := List.exists_cons_of_ne_nil (List.ne_nil_of_mem h)
  rw [commaSeparated_cons]
  rcases List.mem_cons.mp h with rfl | h
  · exact (List.prefix_append _ _).isInfix
  · have hpiece : ',' :: piece <:+: rest.flatMap (',' :: ·) :=
      List.infix_of_mem_flatten (List.mem_map_of_mem (f := fun piece => ',' :: piece) h)
    exact (List.suffix_cons ',' piece).isInfix.trans
      (hpiece.trans (List.suffix_append first _).isInfix)

theorem Member.written_infix_text (m : Member) : m.written <:+: m.text :=
  List.IsSuffix.isInfix ⟨m.before ++ '"' :: m.spelling ++ '"' :: m.after ++ [':'], by
    simp [Member.text]⟩

/-- What an object holds was there before, or is the value of one of the members. -/
theorem mem_foldl_addTo {members : List Member} {done : Object} {p : Text × Value}
    (h : p ∈ members.foldl Member.addTo done) : p ∈ done ∨ ∃ m ∈ members, (m.key, m.value) = p := by
  induction members generalizing done with
  | nil => exact .inl h
  | cons m members ih =>
    rcases ih h with hdone | ⟨m', hm', hp⟩
    · rcases Keyed.mem_set hdone with rfl | hdone
      · exact .inr ⟨m, List.mem_cons_self, rfl⟩
      · exact .inl hdone
    · exact .inr ⟨m', List.mem_cons_of_mem m hm', hp⟩

variable {d : Nat} {cs : Text}

/-- The values of an object are spelled by pieces of its text. -/
theorem Spells.exists_infix {o : Object} {key : Text} {v : Value} (h : Spells d cs (.object o))
    (hmem : (key, v) ∈ o) : ∃ d' written, written <:+: cs ∧ Spells d' written v := by
  generalize ho : Value.object o = w at h
  induction h with
  | null | true | false | number | string | emptyArray | array => cases ho
  | emptyObject =>
    cases ho
    cases hmem
  | @object _ members _ _ _ hvalues =>
    cases ho
    rcases mem_foldl_addTo hmem with hnil | ⟨m, hm, hp⟩
    · cases hnil
    obtain ⟨-, rfl⟩ := Prod.mk.inj hp
    have hpiece : m.text <:+: commaSeparated (members.map Member.text) :=
      infix_commaSeparated (List.mem_map_of_mem hm)
    exact ⟨_, m.written, m.written_infix_text.trans (hpiece.trans ⟨['{'], ['}'], rfl⟩),
      hvalues m hm⟩
  | spaced _ _ _ ih =>
    obtain ⟨d', written, hpiece, hspells⟩ := ih ho
    exact ⟨d', written, hpiece.trans ⟨_, _, rfl⟩, hspells⟩

/-- A string stands between its quotes. -/
theorem Spells.exists_quoted {s : Text} (h : Spells d cs (.string s)) :
    ∃ spelling, '"' :: spelling ++ ['"'] <:+: cs ∧ SpellsString spelling s := by
  generalize hs : Value.string s = v at h
  induction h with
  | null | true | false | number | emptyArray | array | emptyObject | object => cases hs
  | @string _ spelling _ h =>
    cases hs
    exact ⟨spelling, List.infix_refl _, h⟩
  | spaced _ _ _ ih =>
    obtain ⟨spelling, hpiece, hspells⟩ := ih hs
    exact ⟨spelling, hpiece.trans ⟨_, _, rfl⟩, hspells⟩

end Json

/-- A larger text matches as well. -/
theorem Relevance.isMatch_of_infix {relevance : Relevance} {cs cs' : Text} (h : cs <:+: cs')
    (hmatch : relevance.isMatch cs = true) : relevance.isMatch cs' = true := by
  simp only [isMatch, List.any_eq_true, Text.hasPart_iff] at hmatch ⊢
  obtain ⟨keyword, hkeyword, hpart⟩ := hmatch
  exact ⟨keyword, hkeyword, hpart.trans h⟩

namespace Line

/-- The event of a message is spelled in it, between quotes. -/
theorem event_spelled {p : Parts} {e : Text} (h : p.toRecord.event = some e) :
    ∃ spelling, '"' :: spelling ++ ['"'] <:+: p.msg ∧ Json.SpellsString spelling e := by
  obtain ⟨o, hpayload, hevent⟩ := Option.bind_eq_some_iff.mp h
  obtain ⟨v, hlookup, hstring⟩ := Option.bind_eq_some_iff.mp hevent
  obtain rfl := Json.Value.asString?_eq_some.mp hstring
  obtain ⟨a, t, b, hmsg, -, -, hspells⟩ := payload?_eq_some.mp hpayload
  obtain ⟨_, written, hwritten, hvalue⟩ := hspells.exists_infix (Keyed.mem_of_lookup hlookup)
  obtain ⟨spelling, hquoted, hspelling⟩ := hvalue.exists_quoted
  exact ⟨spelling, hquoted.trans (hwritten.trans ⟨a, b, hmsg.symm⟩), hspelling⟩

/-- An event that is written without escapes is a piece of the message. -/
theorem infix_of_not_mem {msg spelling e : Text} (hquoted : '"' :: spelling ++ ['"'] <:+: msg)
    (hspells : Json.SpellsString spelling e) (hslash : '\\' ∉ spelling) : e <:+: msg := by
  rw [hspells.eq_of_not_mem hslash]
  exact List.IsInfix.trans ⟨['"'], ['"'], rfl⟩ hquoted

variable {relevance : Relevance} {raw : Text} {p : Parts}

theorem isSome_parse? (h : parts? raw = some p) :
    (parse? relevance raw).isSome = relevance.accepts p.toRecord.event p.msg := by
  rw [Bool.eq_iff_iff, Option.isSome_iff_exists]
  change _ ↔ relevance.accepts p.toRecord.event p.toRecord.msg = true
  simp [parse?_eq_some, accepts_toRecord, h]

/-- Where the event makes the difference, it is written with an escape. -/
theorem escape_of_accepts (haccepts : relevance.accepts p.toRecord.event p.msg = true)
    (hmatch : relevance.isMatch p.msg = false) :
    ∃ e spelling, p.toRecord.event = some e ∧ relevance.isMatch e = true ∧
      '"' :: spelling ++ ['"'] <:+: p.msg ∧ Json.SpellsString spelling e ∧ '\\' ∈ spelling := by
  rw [Relevance.accepts, hmatch, Bool.or_false, Option.any_eq_true] at haccepts
  obtain ⟨e, hevent, he⟩ := haccepts
  obtain ⟨spelling, hquoted, hspells⟩ := event_spelled hevent
  refine ⟨e, spelling, hevent, he, hquoted, hspells, ?_⟩
  by_contra hslash
  have hmsg := Relevance.isMatch_of_infix (infix_of_not_mem hquoted hspells hslash) he
  rw [hmatch] at hmsg
  cases hmsg

/-- When the events of payloads decide. Without a backslash in the message the event is a piece of
it, and a line is accepted if and only if its message contains a keyword. Wherever the two differ,
the event contains a keyword, the message does not, and the event is written with an escape. -/
theorem accepts_iff_isMatch (relevance : Relevance) (raw : Text) (p : Parts)
    (hp : parts? raw = some p) :
    ('\\' ∉ p.msg →
      (∀ e, p.toRecord.event = some e → e <:+: p.msg ∧
        (relevance.isMatch e = true → relevance.isMatch p.msg = true)) ∧
      ((parse? relevance raw).isSome = true ↔ relevance.isMatch p.msg = true)) ∧
    ((parse? relevance raw).isSome ≠ relevance.isMatch p.msg →
      relevance.isMatch p.msg = false ∧
      ∃ e spelling, p.toRecord.event = some e ∧ relevance.isMatch e = true ∧
        '"' :: spelling ++ ['"'] <:+: p.msg ∧ Json.SpellsString spelling e ∧ '\\' ∈ spelling) := by
  rw [isSome_parse? hp]
  have hpiece (hslash : '\\' ∉ p.msg) {e : Text} (he : p.toRecord.event = some e) :
      e <:+: p.msg := by
    obtain ⟨spelling, hquoted, hspells⟩ := event_spelled he
    exact infix_of_not_mem hquoted hspells fun hmem => hslash (hquoted.subset (by simp [hmem]))
  refine ⟨fun hslash => ⟨fun e he => ⟨hpiece hslash he, ?_⟩, ?_⟩, fun hdiffer => ?_⟩
  · exact Relevance.isMatch_of_infix (hpiece hslash he)
  · constructor
    · intro haccepts
      by_contra hmatch
      obtain ⟨e, spelling, -, -, hquoted, -, hmem⟩ :=
        escape_of_accepts haccepts (Bool.eq_false_iff.mpr hmatch)
      exact hslash (hquoted.subset (by simp [hmem]))
    · exact fun hmatch => by simp [Relevance.accepts, hmatch]
  · cases hmatch : relevance.isMatch p.msg with
    | true => simp [Relevance.accepts, hmatch] at hdiffer
    | false =>
      have haccepts : relevance.accepts p.toRecord.event p.msg = true := by
        simpa [hmatch] using hdiffer
      exact ⟨rfl, escape_of_accepts haccepts hmatch⟩

/-- A line whose event is written as it is, or with an escape for its first letter. -/
def eventLine (spelling : String) : Text :=
  "2024-01-01T00:00:00Z [t] INFO a:1 ".toList ++
    "\x7b\"event\":\"".toList ++ spelling.toList ++ "\"\x7d".toList

theorem accepts_iff_isMatch_vote :
    (∃ p, parts? (eventLine "Vote") = some p ∧ '\\' ∉ p.msg ∧ "Vote".toList <:+: p.msg ∧
      (parse? (.ofKeywords ["Vote".toList]) (eventLine "Vote")).isSome = true) ∧
    ∃ p e spelling, parts? (eventLine "\\u0056ote") = some p ∧ p.toRecord.event = some e ∧
      (parse? (.ofKeywords ["Vote".toList]) (eventLine "\\u0056ote")).isSome = true ∧
      Relevance.isMatch (.ofKeywords ["Vote".toList]) p.msg = false ∧
      Json.SpellsString spelling e ∧ '\\' ∈ spelling := by
  have hplain : (parts? (eventLine "Vote")).map (fun p => (p.msg.contains '\\',
      p.toRecord.event, Relevance.isMatch (.ofKeywords ["Vote".toList]) p.msg)) =
        some (false, some "Vote".toList, true) := by
    decide +kernel
  have hescaped : (parts? (eventLine "\\u0056ote")).map
      (fun p => Relevance.isMatch (.ofKeywords ["Vote".toList]) p.msg) = some false := by
    decide +kernel
  have haccepted :
      (parse? (.ofKeywords ["Vote".toList]) (eventLine "\\u0056ote")).isSome = true := by
    decide +kernel
  constructor
  · obtain ⟨p, hp, hfields⟩ := Option.map_eq_some_iff.mp hplain
    simp only [Prod.mk.injEq] at hfields
    obtain ⟨hslash, hevent, hmatch⟩ := hfields
    have hslash : '\\' ∉ p.msg := by simpa using hslash
    obtain ⟨hpiece, hparse⟩ := (accepts_iff_isMatch (.ofKeywords ["Vote".toList]) _ p hp).1 hslash
    exact ⟨p, hp, hslash, (hpiece _ hevent).1, hparse.mpr hmatch⟩
  · obtain ⟨p, hp, hmatch⟩ := Option.map_eq_some_iff.mp hescaped
    obtain ⟨-, e, spelling, hevent, -, -, hspells, hmem⟩ :=
      (accepts_iff_isMatch (.ofKeywords ["Vote".toList]) _ p hp).2
        (by rw [haccepted, hmatch]; decide)
    exact ⟨p, e, spelling, hp, hevent, haccepted, hmatch, hspells, hmem⟩

end Line

end NodeLogs
