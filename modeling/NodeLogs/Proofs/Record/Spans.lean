import Mathlib.Data.List.Infix
import NodeLogs.Proofs.Line.Grammar
import NodeLogs.Record.Payload

/-! Payloads between braces. The span from the first opening to the last closing brace is found
without a look at what is between them. If it is the text of one object, that object is the
payload, whatever braces are in its strings. An object's text goes on in no longer text of an
object, so that a closing brace behind it leaves a message without a payload. -/

namespace NodeLogs

namespace Json

variable {d d' : Nat} {t rest : Text} {o : Object} {v : Value}

/-- Behind the text of an object, more of the text of a value is white space. -/
theorem Spells.isSpaces_of_object (h : Spells d t (.object o)) (hlong : Spells d' (t ++ rest) v) :
    IsSpaces rest := by
  -- One reader reads both, and it stops at one place.
  have hshort := h.mono (Nat.le_max_left d d')
  have hsize : t.length ≤ (t ++ rest).length := by simp
  obtain ⟨behind, hread, hbehind⟩ := Decoder.value?_reads_object hshort hsize rest
  obtain ⟨behind', hread', hbehind'⟩ :=
    Decoder.value?_reads (hlong.mono (Nat.le_max_right d d')) (Nat.le_refl _) [] nofun
  rw [List.append_nil, hread] at hread'
  cases hread'
  have hnil : Decoder.skipSpace rest = [] := hbehind.symm.trans hbehind'
  exact List.dropWhile_eq_nil_iff.mp hnil

/-- An object's text begins and ends with a brace, but for white space around it. -/
theorem Spells.exists_braced (h : Spells d t (.object o)) :
    ∃ before cs after, t = before ++ cs ++ after ∧ IsSpaces before ∧ IsSpaces after ∧
      Spells d cs (.object o) ∧ cs.head? = some '{' ∧ cs.getLast? = some '}' := by
  generalize hv : Value.object o = v at h
  induction h with
  | null | true | false | number | string | emptyArray | array => cases hv
  | @emptyObject _ space hspace =>
    cases hv
    exact ⟨[], _, [], by simp, .nil, .nil, .emptyObject hspace, rfl, List.getLast?_concat⟩
  | @object _ members hne hspace hkeys hvalues =>
    cases hv
    exact ⟨[], _, [], by simp, .nil, .nil, .object hne hspace hkeys hvalues, rfl,
      List.getLast?_concat⟩
  | @spaced _ before _ after _ hbefore _ hafter ih =>
    obtain ⟨before', cs, after', rfl, hbefore', hafter', hspells, hends⟩ := ih hv
    exact ⟨before ++ before', cs, after' ++ after, by simp,
      List.forall_mem_append.mpr ⟨hbefore, hbefore'⟩,
      List.forall_mem_append.mpr ⟨hafter', hafter⟩, hspells, hends⟩

theorem IsSpaces.not_mem {cs : Text} {c : Char} (h : IsSpaces cs)
    (hc : Decoder.isSpace c = Bool.false) : c ∉ cs := by
  intro hmem
  rw [h c hmem] at hc
  cases hc

end Json

/-! ### Spans -/

theorem Text.dropWhile_eq_iff {p : Char → Bool} {cs rest : Text} :
    cs.dropWhile p = rest ↔
      ∃ before, cs = before ++ rest ∧ (∀ c ∈ before, p c = true) ∧ Line.Stops p rest := by
  simp only [← Line.span_eq_iff, List.span_eq_takeWhile_dropWhile, Prod.mk.injEq]
  exact ⟨fun h => ⟨_, rfl, h⟩, fun ⟨_, _, h⟩ => h⟩

theorem Text.dropEndWhile_eq_iff {p : Char → Bool} {cs front : Text} :
    dropEndWhile p cs = front ↔
      ∃ after, cs = front ++ after ∧ (∀ c ∈ after, p c = true) ∧
        ∀ c ∈ front.getLast?, p c = false := by
  rw [dropEndWhile, ← List.reverse_inj, List.reverse_reverse, dropWhile_eq_iff,
    Line.Stops, List.head?_reverse]
  constructor
  · rintro ⟨before, hcs, hall, hstops⟩
    refine ⟨before.reverse, ?_, fun c hc => hall c (List.mem_reverse.mp hc), hstops⟩
    rw [← List.reverse_inj, hcs, List.reverse_append, List.reverse_reverse]
  · rintro ⟨after, rfl, hall, hstops⟩
    exact ⟨after.reverse, List.reverse_append, fun c hc => hall c (List.mem_reverse.mp hc), hstops⟩

/-- The span is what stands between the braces that are farthest apart, with them. -/
theorem payloadSpan?_eq_some {msg t : Text} :
    payloadSpan? msg = some t ↔ ∃ a b, msg = a ++ t ++ b ∧ '{' ∉ a ∧ '}' ∉ b ∧
      t.head? = some '{' ∧ t.getLast? = some '}' := by
  have hspan : payloadSpan? msg = some t ↔
      Text.dropEndWhile (· ≠ '}') (msg.dropWhile (· ≠ '{')) = t ∧ t ≠ [] := by
    unfold payloadSpan?
    split <;> aesop
  rw [hspan, Text.dropEndWhile_eq_iff]
  constructor
  · rintro ⟨⟨b, hcut, hb, hlast⟩, hne⟩
    obtain ⟨a, rfl, ha, hfirst⟩ := Text.dropWhile_eq_iff.mp hcut
    obtain ⟨c, t, rfl⟩ := List.exists_cons_of_ne_nil hne
    refine ⟨a, b, by simp, fun h => by simpa using ha _ h, fun h => by simpa using hb _ h, ?_, ?_⟩
    · simpa using hfirst c rfl
    · rw [List.getLast?_eq_some_getLast hne] at hlast ⊢
      simpa using hlast
  · rintro ⟨a, b, rfl, ha, hb, hfirst, hlast⟩
    refine ⟨⟨b, ?_, fun c hc => decide_eq_true fun h => hb (h ▸ hc), by simp [hlast]⟩, ?_⟩
    · refine Text.dropWhile_eq_iff.mpr
        ⟨a, by simp, fun c hc => decide_eq_true fun h => ha (h ▸ hc), ?_⟩
      simp [Line.Stops, List.head?_append, hfirst]
    · rintro rfl
      cases hfirst

/-- Texts that begin with a character, behind texts without it. -/
theorem append_right_inj_of_head? {c : Char} {a a' cs cs' : Text} (ha : c ∉ a) (ha' : c ∉ a')
    (hcs : cs.head? = some c) (hcs' : cs'.head? = some c) (h : a ++ cs = a' ++ cs') : cs = cs' := by
  have hcut {a cs : Text} (ha : c ∉ a) (hcs : cs.head? = some c) :
      (a ++ cs).dropWhile (· ≠ c) = cs :=
    Text.dropWhile_eq_iff.mpr ⟨a, rfl, fun d hd => decide_eq_true fun heq => ha (heq ▸ hd),
      by simp [Line.Stops, hcs]⟩
  rw [← hcut ha hcs, h, hcut ha' hcs']

/-- The payload is what the widest span of the message spells. -/
theorem payload?_eq_some {msg : Text} {o : Json.Object} :
    payload? msg = some o ↔ ∃ a t b, msg = a ++ t ++ b ∧ '{' ∉ a ∧ '}' ∉ b ∧
      Json.Spells Json.nestingLimit t (.object o) := by
  rw [payload?, Option.bind_eq_some_iff]
  constructor
  · rintro ⟨t, hspan, hdecode⟩
    obtain ⟨a, b, hmsg, ha, hb, -⟩ := payloadSpan?_eq_some.mp hspan
    exact ⟨a, t, b, hmsg, ha, hb, Json.decodeObject?_eq_some.mp hdecode⟩
  · rintro ⟨a, t, b, rfl, ha, hb, hspells⟩
    obtain ⟨before, cs, after, rfl, hbefore, hafter, hcs, hends⟩ := hspells.exists_braced
    refine ⟨cs, ?_, Json.decodeObject?_eq_some.mpr hcs⟩
    refine payloadSpan?_eq_some.mpr ⟨a ++ before, after ++ b, by simp, ?_, ?_, hends⟩
    · simp [ha, hbefore.not_mem (c := '{') rfl]
    · simp [hb, hafter.not_mem (c := '}') rfl]

/-- With a closing brace behind the first object, the widest span is not the text of an object. -/
theorem payload?_eq_none {a t b : Text} {d : Nat} {o : Json.Object} (ha : '{' ∉ a) (hb : '}' ∈ b)
    (h : Json.Spells d t (.object o)) : payload? (a ++ t ++ b) = none := by
  rw [Option.eq_none_iff_forall_ne_some]
  intro o' hpayload
  obtain ⟨wide, hspan, hdecode⟩ := Option.bind_eq_some_iff.mp hpayload
  obtain ⟨a', b', hmsg, ha', hb', hfirst', -⟩ := payloadSpan?_eq_some.mp hspan
  obtain ⟨before, cs, after, rfl, hbefore, -, hcs, hfirst, -⟩ := h.exists_braced
  -- Both begin at the first opening brace.
  have hstart : cs ++ (after ++ b) = wide ++ b' := by
    have hnarrow : '{' ∉ a ++ before := by simp [ha, hbefore.not_mem (c := '{') rfl]
    refine append_right_inj_of_head? hnarrow ha' ?_ ?_ ?_
    · simp [List.head?_append, hfirst]
    · simp [List.head?_append, hfirst']
    · simpa using hmsg
  rcases List.append_eq_append_iff.mp hstart with ⟨more, rfl, hmore⟩ | ⟨more, rfl, hmore⟩
  · have hclose : '}' ∈ more := by
      have hmem : '}' ∈ after ++ b := List.mem_append_right after hb
      rw [hmore, List.mem_append] at hmem
      exact hmem.resolve_right hb'
    exact (hcs.isSpaces_of_object (Json.decodeObject?_eq_some.mp hdecode)).not_mem rfl hclose
  · exact hb' (hmore ▸ List.mem_append_right more (List.mem_append_right after hb))

/-- Which object a message carries. The span is cut by the outermost braces alone. If it is the
text of an object within the nesting limit, and of what it denotes, that is the payload; if an
object stands at the first brace and a closing brace is anywhere behind it, there is none. -/
theorem payload?_extracts :
    (∀ msg t, payloadSpan? msg = some t ↔ ∃ a b, msg = a ++ t ++ b ∧ '{' ∉ a ∧ '}' ∉ b ∧
      t.head? = some '{' ∧ t.getLast? = some '}') ∧
    (∀ a t b o, '{' ∉ a → '}' ∉ b → Json.Spells Json.nestingLimit t (.object o) →
      payload? (a ++ t ++ b) = some o) ∧
    (∀ a t b d o, '{' ∉ a → '}' ∈ b → Json.Spells d t (.object o) →
      payload? (a ++ t ++ b) = none) :=
  ⟨fun _ _ => payloadSpan?_eq_some,
    fun a t b _ ha hb h => payload?_eq_some.mpr ⟨a, t, b, rfl, ha, hb, h⟩,
    fun _ _ _ _ _ => payload?_eq_none⟩

/-- A brace in a string is no end of the object, and a second object leaves none. -/
theorem payload?_extracts_braces :
    payload? "a \x7b\"x\":\"\x7d\x7b\"\x7d b".toList =
        some [("x".toList, .string "\x7d\x7b".toList)] ∧
      payload? "a \x7b\"x\":1\x7d b \x7b\"y\":2\x7d c".toList = none := by
  have hfirst : Json.Spells Json.nestingLimit "\x7b\"x\":\"\x7d\x7b\"\x7d".toList
      (.object [("x".toList, .string "\x7d\x7b".toList)]) :=
    Json.decodeObject?_eq_some.mp rfl
  have hsecond : Json.Spells Json.nestingLimit "\x7b\"x\":1\x7d".toList
      (.object [("x".toList, .number "1".toList)]) :=
    Json.decodeObject?_eq_some.mp rfl
  exact ⟨payload?_extracts.2.1 "a ".toList _ " b".toList _ (by decide) (by decide) hfirst,
    payload?_extracts.2.2 "a ".toList _ " b \x7b\"y\":2\x7d c".toList _ _ (by decide) (by decide)
      hsecond⟩

end NodeLogs
