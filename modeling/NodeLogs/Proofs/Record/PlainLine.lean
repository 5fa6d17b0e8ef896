import Mathlib.Data.List.TakeWhile
import NodeLogs.Proofs.Record.JsonLine
import NodeLogs.Proofs.Text.Coding

/-! The plain line of a record. A time is made of digits and of marks between them, so that
neither a blank nor a line feed is in it, and a message is one line. So the plain line is one
line, and cutting it at the first blank gives the time and the message back. -/

namespace NodeLogs

namespace Line

variable {cs taken rest : Text}

/-- A character that a time can have. -/
def isStampChar (c : Char) : Bool :=
  isScriptDigit c || "-T:.Z".toList.contains c

theorem takeShape?_chars {shape : Text} (hshape : ∀ slot ∈ shape, slot = 'd' ∨ isStampChar slot)
    (h : takeShape? shape cs = some (taken, rest)) : ∀ c ∈ taken, isStampChar c := by
  induction shape generalizing cs taken with
  | nil =>
    cases h
    simp
  | cons slot shape ih =>
    obtain ⟨hslot, hshape⟩ := List.forall_mem_cons.mp hshape
    cases cs with
    | nil => cases h
    | cons c cs =>
      unfold takeShape? at h
      by_cases hc : (if slot = 'd' then isScriptDigit c else decide (c = slot)) = true
      · rw [if_pos hc] at h
        obtain ⟨⟨taken, rest⟩, htaken, heq⟩ := Option.map_eq_some_iff.mp h
        cases heq
        refine List.forall_mem_cons.mpr ⟨?_, ih hshape htaken⟩
        by_cases hd : slot = 'd'
        · rw [if_pos hd] at hc
          simp [isStampChar, hc]
        · rw [if_neg hd, decide_eq_true_eq] at hc
          exact hc ▸ hslot.resolve_left hd
      · rw [if_neg hc] at h
        cases h

theorem takeFraction?_chars (h : takeFraction? cs = some (taken, rest)) :
    ∀ c ∈ taken, isStampChar c := by
  unfold takeFraction? at h
  split at h
  · split at h
    · cases h
    next digits rest' hspan =>
      cases h
      refine List.forall_mem_cons.mpr ⟨by decide, fun c hc => ?_⟩
      rw [List.span_eq_takeWhile_dropWhile, Prod.mk.injEq] at hspan
      rw [← hspan.1] at hc
      simp [isStampChar, List.mem_takeWhile_imp hc]
  · cases h
    simp

theorem takeStamp?_chars (h : takeStamp? cs = some (taken, rest)) : ∀ c ∈ taken, isStampChar c := by
  simp only [takeStamp?, Option.bind_eq_bind, Option.bind_eq_some_iff, Option.pure_def] at h
  obtain ⟨⟨second, cs⟩, hsecond, ⟨fraction, cs⟩, hfraction, cs, -, h⟩ := h
  cases h
  have hshape : stampShape.all (fun slot => slot = 'd' || isStampChar slot) := by decide
  have hshape : ∀ slot ∈ stampShape, slot = 'd' ∨ isStampChar slot := by
    simpa only [List.all_eq_true, Bool.or_eq_true, decide_eq_true_eq] using hshape
  simp only [List.forall_mem_append, List.mem_singleton, forall_eq]
  exact ⟨⟨takeShape?_chars hshape hsecond, takeFraction?_chars hfraction⟩, by decide⟩

/-- In a line in its parts the time is of such characters, and the message is one line. -/
theorem parts?_eq_some {raw : Text} {p : Parts} (h : parts? raw = some p) :
    (∀ c ∈ p.stamp, isStampChar c) ∧ '\n' ∉ p.msg := by
  simp only [parts?, Option.bind_eq_bind, Option.bind_eq_some_iff, Option.pure_def] at h
  obtain ⟨⟨stamp, cs⟩, hstamp, ⟨_, cs⟩, -, cs, -, ⟨thread, cs⟩, -, cs, -, ⟨_, cs⟩, -, ⟨level, cs⟩, -,
    ⟨_, cs⟩, -, ⟨origin, cs⟩, -, ⟨target, line⟩, -, ⟨_, msg⟩, -, h⟩ := h
  split at h
  · cases h
  next hmsg =>
    cases h
    exact ⟨takeStamp?_chars hstamp, by simpa using hmsg⟩

end Line

namespace Record

variable {relevance : Relevance} {raw : Text} {r : Record}
  (hparse : Line.parse? relevance raw = some r)
include hparse

theorem stamp_chars : ∀ c ∈ r.stamp, Line.isStampChar c := by
  obtain ⟨p, hp, rfl⟩ := Line.exists_parts_of_parse? hparse
  exact (Line.parts?_eq_some hp).1

theorem blank_not_mem_stamp : ' ' ∉ r.stamp := fun hmem =>
  absurd (stamp_chars hparse _ hmem) (by decide)

theorem feed_not_mem_plain : '\n' ∉ r.plain := by
  intro hmem
  simp only [plain, List.mem_append, List.mem_cons, Char.reduceEq, false_or] at hmem
  rcases hmem with hmem | hmem
  · exact absurd (stamp_chars hparse _ hmem) (by decide)
  · obtain ⟨p, hp, rfl⟩ := Line.exists_parts_of_parse? hparse
    exact (Line.parts?_eq_some hp).2 hmem

theorem feed_not_mem_jsonFrom (o : Origin) : '\n' ∉ r.jsonFrom o :=
  ((Line.kept_of_parse? hparse).membersFrom o).feed_not_mem

/-- Cut at its first blank, the plain line gives the time and the message. -/
theorem span_plain : r.plain.span (· ≠ ' ') = (r.stamp, ' ' :: r.msg) := by
  have hstamp : ∀ c ∈ r.stamp, decide (c ≠ ' ') = true := fun c hc =>
    decide_eq_true fun hblank => blank_not_mem_stamp hparse (hblank ▸ hc)
  unfold plain
  rw [List.span_eq_takeWhile_dropWhile, List.takeWhile_append_of_pos hstamp,
    List.dropWhile_append_of_pos hstamp]
  simp

end Record

end NodeLogs
