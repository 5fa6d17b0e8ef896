import NodeLogs.Proofs.Line.Grammar

/-! Lines written from their parts, with single blanks between them and the line number in
decimal. That is a layout, so reading gives the parts back, whatever ends the line. The payload,
the event and the fields of a record come of its message alone. So a record that was read from
any line at all is read again, the same in all of these, from the line written from its parts. -/

namespace NodeLogs

/-- The parts of the line that a record came of. -/
def Record.parts (r : Record) : Line.Parts where
  stamp := r.stamp
  thread := r.thread
  level := r.level
  target := r.target
  line := r.line
  msg := r.msg

namespace Line

theorem IsRow.of_all {f : Char → Bool} {cs : Text} (hne : cs ≠ []) (hall : cs.all f = true) :
    IsRow f cs :=
  ⟨hne, List.all_eq_true.mp hall⟩

namespace Parts

/-- The line, without an ending. -/
def render (p : Parts) : Text :=
  p.stamp ++ " [".toList ++ p.thread ++ "] ".toList ++ p.level ++ " ".toList ++ p.target ++
    ":".toList ++ decimal p.line ++ " ".toList ++ p.msg

/-- What parts can be read: the rules for each of them by itself. -/
structure Lexical (p : Parts) : Prop where
  stamp : IsStamp p.stamp
  thread : IsRow (· ≠ ']') p.thread
  level : IsRow isLevelLetter p.level
  target : IsRow (!isBlank ·) p.target
  line_lt : p.line < wordLimit
  feed_not_mem_msg : '\n' ∉ p.msg
  tight : Stops isBlank p.msg

/-- The layout of the line. -/
def layout (p : Parts) : Layout where
  stamp := p.stamp
  gap₁ := [' ']
  thread := p.thread
  gap₂ := [' ']
  level := p.level
  gap₃ := [' ']
  target := p.target
  digits := decimal p.line
  gap₄ := [' ']
  msg := p.msg

variable {p : Parts}

theorem text_layout (p : Parts) : p.layout.text = p.render := by
  simp [layout, Layout.text, render]

theorem parts_layout (p : Parts) : p.layout.parts = p := by
  simp [layout, Layout.parts, digitsValue_decimal]

@[simp] theorem parts_toRecord (p : Parts) : p.toRecord.parts = p := rfl

theorem isRow_blank : IsRow isBlank [' '] :=
  .of_all (by simp) rfl

theorem isRow_decimal (n : Nat) : IsRow isAsciiDigit (decimal n) :=
  ⟨Nat.toDigits_ne_nil, fun _ hc => isAsciiDigit_of_isDigit (isDigit_of_mem_decimal hc)⟩

theorem Lexical.layout_wellFormed (h : p.Lexical) : p.layout.WellFormed where
  stamp := h.stamp
  gap₁ := isRow_blank
  thread := h.thread
  gap₂ := isRow_blank
  level := h.level
  gap₃ := isRow_blank
  target := h.target
  digits := isRow_decimal p.line
  line_lt := (digitsValue_decimal p.line).symm ▸ h.line_lt
  gap₄ := isRow_blank
  feed_not_mem_msg := h.feed_not_mem_msg

/-- Read from a line that is left as it was rendered, the parts come back. -/
theorem Lexical.parts?_of_dropEnding (h : p.Lexical) {raw : Text}
    (hraw : dropEnding raw = p.render) : parts? raw = some p := by
  rw [h.layout_wellFormed.parts?_eq_some h.tight ((text_layout p).trans hraw.symm), parts_layout]

/-- The parts that are read obey the rules. -/
theorem lexical_of_parts? {raw : Text} (h : parts? raw = some p) : p.Lexical := by
  obtain ⟨l, hl, htight, -, rfl⟩ := Layout.exists_of_parts? h
  exact ⟨hl.stamp, hl.thread, hl.level, hl.target, hl.line_lt, hl.feed_not_mem_msg, htight⟩

end Parts

/-! ### Endings -/

theorem dropEnding_append_crlf (cs : Text) : dropEnding (cs ++ "\r\n".toList) = cs := by
  have hcrlf : cs ++ "\r\n".toList = (cs ++ ['\r']) ++ ['\n'] := by simp
  rw [hcrlf]
  simp [dropEnding, dropEnding.dropLast?]

theorem dropEnding_append_feed {cs : Text} (h : cs.getLast? ≠ some '\r') :
    dropEnding (cs ++ ['\n']) = cs := by
  simp [dropEnding, dropEnding.dropLast?, h]

theorem dropEnding_self {cs : Text} (hfeed : cs.getLast? ≠ some '\n')
    (h : cs.getLast? ≠ some '\r') : dropEnding cs = cs := by
  simp [dropEnding, dropEnding.dropLast?, hfeed, h]

/-- A rendered line ends as its message does. -/
theorem Parts.getLast?_render {p : Parts} {c : Char} (hc : c ≠ ' ') :
    p.render.getLast? = some c ↔ p.msg.getLast? = some c := by
  rw [render, List.append_assoc, List.getLast?_append, List.getLast?_append]
  cases p.msg.getLast? with
  | none => simpa using hc.symm
  | some d => simp

/-! ### Reading what was rendered -/

variable {relevance : Relevance} {p : Parts} {raw : Text}

theorem parse?_of_dropEnding (hlexical : p.Lexical) (hrelevant : Relevant relevance p)
    (hraw : dropEnding raw = p.render) : parse? relevance raw = some p.toRecord :=
  parse?_eq_some.mpr ⟨p, hlexical.parts?_of_dropEnding hraw, hrelevant, rfl⟩

/-- Rendering is undone by parsing, and keeps what parsing gives. A record that was parsed from
any line is parsed again from the line rendered from its parts: behind a carriage return and a
line feed always, and behind a line feed or nothing unless its message ends with a carriage
return, which would be taken off. And all parts that obey the rules and are relevant come back
as they were. -/
theorem parse?_render (relevance : Relevance) :
    (∀ raw r, parse? relevance raw = some r →
      parse? relevance (r.parts.render ++ "\r\n".toList) = some r ∧
        (r.msg.getLast? ≠ some '\r' →
          parse? relevance (r.parts.render ++ "\n".toList) = some r ∧
            parse? relevance r.parts.render = some r)) ∧
      ∀ p : Parts, p.Lexical → Relevant relevance p →
        ∃ r, parse? relevance (p.render ++ "\r\n".toList) = some r ∧ r.parts = p := by
  constructor
  · intro raw r hr
    obtain ⟨p, hp, hrelevant, rfl⟩ := parse?_eq_some.mp hr
    have hlexical := Parts.lexical_of_parts? hp
    have hread {raw : Text} (hraw : dropEnding raw = p.render) :=
      parse?_of_dropEnding hlexical hrelevant hraw
    refine ⟨hread (dropEnding_append_crlf _), fun hmsg => ?_⟩
    have hreturn : p.render.getLast? ≠ some '\r' := fun h =>
      hmsg ((Parts.getLast?_render (by decide)).mp h)
    have hfeed : p.render.getLast? ≠ some '\n' := fun h =>
      hlexical.feed_not_mem_msg (List.mem_of_getLast? ((Parts.getLast?_render (by decide)).mp h))
    exact ⟨hread (dropEnding_append_feed hreturn), hread (dropEnding_self hfeed hreturn)⟩
  · intro p hlexical hrelevant
    exact ⟨p.toRecord, parse?_of_dropEnding hlexical hrelevant (dropEnding_append_crlf _), rfl⟩

/-- A line that is not written as it would be rendered. -/
def spacedLine : Text :=
  "2024-01-01T00:00:00.5Z\t[t [0]  INFO a:1:007  Vote \r\n".toList

/-- Its parts, but for a carriage return at the end of the message. -/
def returnParts : Parts where
  stamp := "2024-01-01T00:00:00.5Z".toList
  thread := "t [0".toList
  level := "INFO".toList
  target := "a:1".toList
  line := 7
  msg := "Vote \r".toList

theorem lexical_returnParts : returnParts.Lexical where
  stamp := by
    refine ⟨"2024".toList, "01".toList, "01".toList, "00".toList, "00".toList, "00".toList,
      ".5".toList, ?_, ?_, ?_, ?_, ?_, ?_,
      .part (IsRow.of_all (by decide) (by decide +kernel)), rfl⟩
    all_goals exact ⟨rfl, List.all_eq_true.mp (by decide +kernel)⟩
  thread := IsRow.of_all (by decide) (by decide)
  level := IsRow.of_all (by decide) (by decide)
  target := IsRow.of_all (by decide) (by decide)
  line_lt := by decide
  feed_not_mem_msg := by decide
  tight := stops_cons (by decide : isBlank 'V' = false) "ote \r".toList

theorem parse?_render_spaced :
    (∃ r, parse? (.ofKeywords ["Vote".toList]) spacedLine = some r ∧
      r.parts.render = "2024-01-01T00:00:00.5Z [t [0] INFO a:1:7 Vote ".toList ∧
      parse? (.ofKeywords ["Vote".toList]) r.parts.render = some r) ∧
    ∃ r, parse? (.ofKeywords ["Vote".toList]) (returnParts.render ++ "\r\n".toList) = some r ∧
      r.parts = returnParts := by
  obtain ⟨hrecord, hparts⟩ := parse?_render (.ofKeywords ["Vote".toList])
  constructor
  · have hspaced : (parse? (.ofKeywords ["Vote".toList]) spacedLine).map
        (fun r => (r.parts.render, r.msg.getLast?)) =
          some ("2024-01-01T00:00:00.5Z [t [0] INFO a:1:7 Vote ".toList, some ' ') := by
      decide +kernel
    obtain ⟨r, hr, hfields⟩ := Option.map_eq_some_iff.mp hspaced
    obtain ⟨hrender, hlast⟩ := Prod.mk.inj hfields
    obtain ⟨-, hplain⟩ := hrecord spacedLine r hr
    exact ⟨r, hr, hrender, (hplain (by rw [hlast]; decide)).2⟩
  · have hrelevant : Relevant (.ofKeywords ["Vote".toList]) returnParts :=
      ⟨"Vote".toList, mem_ofKeywords.mpr ⟨by simp, by decide⟩, .inr ⟨[], " \r".toList, rfl⟩⟩
    exact hparts returnParts lexical_returnParts hrelevant

end Line

end NodeLogs
