import Mathlib.Data.List.Forall2
import Mathlib.Data.List.TakeDrop
import Mathlib.Data.List.TakeWhile
import NodeLogs.Proofs.Record.JsonLine

/-! The grammar of log lines, apart from their reader. A layout is a line as it is written:
its parts, and what stands between them. A line is read if and only if it has a layout, and of
its layouts there is one whose message does not begin with a blank. What is read are the parts
of that layout, and a record comes of them if its event or its message contains a keyword. -/

namespace NodeLogs

/-- A text contains another if that is a block of neighbours in it. -/
theorem Text.hasPart_iff {part cs : Text} : Text.hasPart part cs = true ↔ part <:+: cs := by
  induction cs with
  | nil => simp [hasPart]
  | cons c cs ih =>
    rw [hasPart, Bool.or_eq_true, ih, List.isPrefixOf_iff_prefix, List.infix_cons_iff]

theorem Json.Value.asString?_eq_some {v : Json.Value} {s : Text} :
    v.asString? = some s ↔ v = .string s := by
  cases v <;> simp [asString?]

namespace Line

/-! ### Rows of characters -/

/-- A text of at least one character, all of a class. -/
structure IsRow (p : Char → Bool) (cs : Text) : Prop where
  ne_nil : cs ≠ []
  all : ∀ c ∈ cs, p c = true

/-- A text that does not begin with a character of a class. -/
def Stops (p : Char → Bool) (cs : Text) : Prop :=
  ∀ c ∈ cs.head?, p c = false

variable {p q : Char → Bool} {cs taken rest : Text}

theorem IsRow.stops (h : IsRow p cs) (hpq : ∀ c, p c = true → q c = false) (rest : Text) :
    Stops q (cs ++ rest) := by
  obtain ⟨c, cs, rfl⟩ := List.exists_cons_of_ne_nil h.ne_nil
  intro d hd
  obtain rfl : c = d := by simpa using hd
  exact hpq c (h.all c List.mem_cons_self)

theorem stops_cons {c : Char} (h : p c = false) (cs : Text) : Stops p (c :: cs) := by
  intro d hd
  obtain rfl : c = d := by simpa using hd
  exact h

theorem stops_dropWhile (p : Char → Bool) (cs : Text) : Stops p (cs.dropWhile p) := by
  intro c hc
  have hnot := List.head?_dropWhile_not p cs
  rw [Option.mem_def.mp hc] at hnot
  simpa using hnot

theorem span_append (hall : ∀ c ∈ taken, p c = true) (hstops : Stops p rest) :
    (taken ++ rest).span p = (taken, rest) := by
  rw [List.span_eq_takeWhile_dropWhile, List.takeWhile_append_of_pos hall,
    List.dropWhile_append_of_pos hall]
  cases rest with
  | nil => simp
  | cons c rest => simp [hstops c rfl]

theorem span_eq_iff : cs.span p = (taken, rest) ↔
    cs = taken ++ rest ∧ (∀ c ∈ taken, p c = true) ∧ Stops p rest := by
  constructor
  · intro h
    rw [List.span_eq_takeWhile_dropWhile] at h
    obtain ⟨rfl, rfl⟩ := Prod.mk.inj h
    exact ⟨List.takeWhile_append_dropWhile.symm, fun c hc => List.mem_takeWhile_imp hc,
      stops_dropWhile p cs⟩
  · rintro ⟨rfl, hall, hstops⟩
    exact span_append hall hstops

/-- A row is taken as far as it goes. -/
theorem takeSome?_eq_some : takeSome? p cs = some (taken, rest) ↔
    cs = taken ++ rest ∧ IsRow p taken ∧ Stops p rest := by
  unfold takeSome?
  constructor
  · intro h
    obtain ⟨taken', rest', hspan⟩ : ∃ taken' rest', cs.span p = (taken', rest') := ⟨_, _, rfl⟩
    obtain ⟨hcs, hall, hstops⟩ := span_eq_iff.mp hspan
    rw [hspan] at h
    cases taken' with
    | nil => cases h
    | cons c taken' =>
      cases h
      exact ⟨hcs, ⟨List.cons_ne_nil c taken', hall⟩, hstops⟩
  · rintro ⟨rfl, hrow, hstops⟩
    rw [span_append hrow.all hstops]
    obtain ⟨c, taken, rfl⟩ := List.exists_cons_of_ne_nil hrow.ne_nil
    rfl

/-- Two rows that stop are the same if they begin one text. -/
theorem IsRow.append_inj {taken' rest' : Text} (h : IsRow p taken) (hstops : Stops p rest)
    (h' : IsRow p taken') (hstops' : Stops p rest') (heq : taken ++ rest = taken' ++ rest') :
    taken = taken' ∧ rest = rest' := by
  have htake := takeSome?_eq_some.mpr ⟨rfl, h, hstops⟩
  rw [heq, takeSome?_eq_some.mpr ⟨rfl, h', hstops'⟩] at htake
  cases htake
  exact ⟨rfl, rfl⟩

theorem takeChar?_eq_some {c : Char} : takeChar? c cs = some rest ↔ cs = c :: rest := by
  cases cs with
  | nil => simp [takeChar?]
  | cons d cs =>
    by_cases hd : d = c <;> simp [takeChar?, hd]

@[simp] theorem takeChar?_cons_self (c : Char) (cs : Text) : takeChar? c (c :: cs) = some cs :=
  takeChar?_eq_some.mpr rfl

/-- A row of ASCII digits that is not too large is a word. -/
theorem readWord?_eq_some {n : Nat} : readWord? cs = some n ↔
    IsRow isAsciiDigit cs ∧ digitsValue cs = n ∧ n < wordLimit := by
  unfold readWord?
  by_cases hrow : (cs.isEmpty || !cs.all isAsciiDigit) = true
  · rw [if_pos hrow]
    refine ⟨fun h => (nomatch h), fun ⟨hdigits, _⟩ => ?_⟩
    simp [hdigits.ne_nil] at hrow
    obtain ⟨c, hc, hdigit⟩ := hrow
    rw [hdigits.all c hc] at hdigit
    cases hdigit
  · have hdigits : IsRow isAsciiDigit cs := by
      constructor <;> simp_all
    rw [if_neg hrow]
    by_cases hlimit : digitsValue cs < wordLimit
    · simp only [if_pos hlimit, Option.some.injEq]
      exact ⟨fun h => ⟨hdigits, h, h ▸ hlimit⟩, fun h => h.2.1⟩
    · simp only [if_neg hlimit]
      exact ⟨fun h => (nomatch h), fun h => absurd (h.2.1 ▸ h.2.2) hlimit⟩

/-- A separator that does not come again is the last one. -/
theorem cutAtLast?_eq_some {separator : Char} {before after : Text} :
    Text.cutAtLast? separator cs = some (before, after) ↔
      cs = before ++ separator :: after ∧ separator ∉ after := by
  unfold Text.cutAtLast?
  constructor
  · intro h
    obtain ⟨after', rest', hspan⟩ :
      ∃ after' rest', cs.reverse.span (· ≠ separator) = (after', rest') := ⟨_, _, rfl⟩
    obtain ⟨hcs, hall, hstops⟩ := span_eq_iff.mp hspan
    rw [hspan] at h
    cases rest' with
    | nil => cases h
    | cons c before' =>
      cases h
      obtain rfl : c = separator := by simpa using hstops c rfl
      refine ⟨?_, fun hmem => by simpa using hall c (List.mem_reverse.mp hmem)⟩
      rw [← List.reverse_reverse cs, hcs]
      simp
  · rintro ⟨rfl, hnot⟩
    have hall : ∀ c ∈ after.reverse, decide (c ≠ separator) = true := fun c hc =>
      decide_eq_true fun h => hnot (h ▸ List.mem_reverse.mp hc)
    have hstops : Stops (fun c => decide (c ≠ separator)) (separator :: before.reverse) :=
      stops_cons (by simp) _
    rw [List.reverse_append, List.reverse_cons, List.append_assoc, List.singleton_append,
      span_append hall hstops]
    simp

/-! ### Times -/

/-- So many digits, of whatever script. -/
structure AreDigits (n : Nat) (cs : Text) : Prop where
  length : cs.length = n
  all : ∀ c ∈ cs, isScriptDigit c = true

/-- The part of a second: nothing, or a point and at least one digit. -/
inductive IsFraction : Text → Prop where
  | whole : IsFraction []
  | part {digits : Text} (h : IsRow isScriptDigit digits) : IsFraction ('.' :: digits)

/-- A day and a time of day, as in 2024-05-06T07:08:09.25Z. -/
def IsStamp (cs : Text) : Prop :=
  ∃ year month day hour minute second fraction,
    AreDigits 4 year ∧ AreDigits 2 month ∧ AreDigits 2 day ∧ AreDigits 2 hour ∧
      AreDigits 2 minute ∧ AreDigits 2 second ∧ IsFraction fraction ∧
        cs = year ++ '-' :: (month ++ '-' :: (day ++ 'T' :: (hour ++ ':' :: (minute ++ ':' ::
          (second ++ (fraction ++ ['Z']))))))

/-- A character in its slot of a shape. -/
def FitsSlot (slot c : Char) : Prop :=
  (if slot = 'd' then isScriptDigit c else decide (c = slot)) = true

theorem takeShape?_cons {slot c : Char} {shape : Text} (h : FitsSlot slot c) :
    takeShape? (slot :: shape) (c :: cs) =
      (takeShape? shape cs).map fun (taken, rest) => (c :: taken, rest) :=
  if_pos h

theorem takeShape?_eq_some {shape : Text} : takeShape? shape cs = some (taken, rest) ↔
    cs = taken ++ rest ∧ List.Forall₂ FitsSlot shape taken := by
  constructor
  · intro h
    induction shape generalizing cs taken with
    | nil =>
      cases h
      exact ⟨rfl, .nil⟩
    | cons slot shape ih =>
      cases cs with
      | nil => cases h
      | cons c cs =>
        by_cases hslot : FitsSlot slot c
        · rw [takeShape?_cons hslot, Option.map_eq_some_iff] at h
          obtain ⟨⟨taken, rest⟩, htaken, heq⟩ := h
          cases heq
          obtain ⟨rfl, hfit⟩ := ih htaken
          exact ⟨rfl, .cons hslot hfit⟩
        · exact absurd (h.symm.trans (if_neg hslot)) (Option.some_ne_none _)
  · rintro ⟨rfl, hfit⟩
    induction hfit with
    | nil => rfl
    | cons hslot _ ih =>
      rw [List.cons_append, takeShape?_cons hslot, ih]
      rfl

theorem fits_digits {n : Nat} :
    List.Forall₂ FitsSlot (List.replicate n 'd') cs ↔ AreDigits n cs := by
  constructor
  · intro h
    induction n generalizing cs with
    | zero =>
      cases h
      exact ⟨rfl, nofun⟩
    | succ n ih =>
      cases h with
      | cons hslot h =>
        obtain ⟨rfl, hall⟩ := ih h
        exact ⟨rfl, List.forall_mem_cons.mpr ⟨hslot, hall⟩⟩
  · rintro ⟨rfl, hall⟩
    induction cs with
    | nil => exact .nil
    | cons c cs ih =>
      obtain ⟨hc, hall⟩ := List.forall_mem_cons.mp hall
      exact .cons hc (ih hall)

/-- Digits of a shape go up to the mark behind them. -/
theorem fits_digits_mark {n : Nat} {mark : Char} {shape : Text} (hmark : mark ≠ 'd') :
    List.Forall₂ FitsSlot (List.replicate n 'd' ++ mark :: shape) cs ↔
      ∃ digits cs', AreDigits n digits ∧ List.Forall₂ FitsSlot shape cs' ∧
        cs = digits ++ mark :: cs' := by
  have hfits (c : Char) : FitsSlot mark c ↔ c = mark := by simp [FitsSlot, hmark]
  constructor
  · intro h
    have hdigits := (List.forall₂_take_append cs _ _ h.flip).flip
    have hafter := (List.forall₂_drop_append cs _ _ h.flip).flip
    obtain ⟨c, cs', hc, hfit, hdrop⟩ := List.forall₂_cons_left_iff.mp hafter
    obtain rfl := (hfits c).mp hc
    refine ⟨_, cs', fits_digits.mp hdigits, hfit, ?_⟩
    rw [← hdrop, List.take_append_drop]
  · rintro ⟨digits, cs', hdigits, hfit, rfl⟩
    exact List.rel_append (fits_digits.mpr hdigits) (.cons ((hfits mark).mpr rfl) hfit)

theorem takeFraction?_point :
    takeFraction? ('.' :: cs) =
      (takeSome? isScriptDigit cs).map fun (digits, rest) => ('.' :: digits, rest) := by
  rw [takeFraction?, takeSome?]
  obtain ⟨digits, rest, hspan⟩ : ∃ digits rest, cs.span isScriptDigit = (digits, rest) :=
    ⟨_, _, rfl⟩
  rw [hspan]
  cases digits <;> rfl

/-- Before the mark that ends a time, the part of a second is taken as it is. -/
theorem takeFraction?_eq_some :
    takeFraction? cs = some (taken, 'Z' :: rest) ↔
      cs = taken ++ 'Z' :: rest ∧ IsFraction taken := by
  constructor
  · intro h
    unfold takeFraction? at h
    split at h
    next cs =>
      have h : takeFraction? ('.' :: cs) = some (taken, 'Z' :: rest) := h
      rw [takeFraction?_point, Option.map_eq_some_iff] at h
      obtain ⟨⟨digits, rest'⟩, hdigits, heq⟩ := h
      cases heq
      obtain ⟨rfl, hrow, -⟩ := takeSome?_eq_some.mp hdigits
      exact ⟨rfl, .part hrow⟩
    · cases h
      exact ⟨rfl, .whole⟩
  · rintro ⟨rfl, hfraction⟩
    cases hfraction with
    | whole => rfl
    | @part digits hrow =>
      have hstops : Stops isScriptDigit ('Z' :: rest) := stops_cons (by decide) rest
      have htake := takeSome?_eq_some.mpr ⟨rfl, hrow, hstops⟩
      rw [List.cons_append, takeFraction?_point, htake]
      rfl

/-- What fits the shape of a time is its day and time of day, to the second. -/
theorem fits_stampShape : List.Forall₂ FitsSlot stampShape cs ↔
    ∃ year month day hour minute second,
      AreDigits 4 year ∧ AreDigits 2 month ∧ AreDigits 2 day ∧ AreDigits 2 hour ∧
        AreDigits 2 minute ∧ AreDigits 2 second ∧
          cs = year ++ '-' :: (month ++ '-' :: (day ++ 'T' :: (hour ++ ':' :: (minute ++ ':' ::
            second)))) := by
  have hshape : stampShape = List.replicate 4 'd' ++ '-' :: (List.replicate 2 'd' ++ '-' ::
    (List.replicate 2 'd' ++ 'T' :: (List.replicate 2 'd' ++ ':' :: (List.replicate 2 'd' ++ ':' ::
      List.replicate 2 'd')))) := rfl
  rw [hshape]
  constructor
  · intro h
    obtain ⟨year, _, hyear, h₁, rfl⟩ := (fits_digits_mark (by decide)).mp h
    obtain ⟨month, _, hmonth, h₂, rfl⟩ := (fits_digits_mark (by decide)).mp h₁
    obtain ⟨day, _, hday, h₃, rfl⟩ := (fits_digits_mark (by decide)).mp h₂
    obtain ⟨hour, _, hhour, h₄, rfl⟩ := (fits_digits_mark (by decide)).mp h₃
    obtain ⟨minute, second, hminute, h₅, rfl⟩ := (fits_digits_mark (by decide)).mp h₄
    exact ⟨year, month, day, hour, minute, second, hyear, hmonth, hday, hhour, hminute,
      fits_digits.mp h₅, rfl⟩
  · rintro ⟨year, month, day, hour, minute, second, hyear, hmonth, hday, hhour, hminute, hsecond,
      rfl⟩
    refine (fits_digits_mark (by decide)).mpr ⟨year, _, hyear, ?_, rfl⟩
    refine (fits_digits_mark (by decide)).mpr ⟨month, _, hmonth, ?_, rfl⟩
    refine (fits_digits_mark (by decide)).mpr ⟨day, _, hday, ?_, rfl⟩
    refine (fits_digits_mark (by decide)).mpr ⟨hour, _, hhour, ?_, rfl⟩
    exact (fits_digits_mark (by decide)).mpr ⟨minute, second, hminute, fits_digits.mpr hsecond, rfl⟩

/-- A time is taken whole, and nothing else is. -/
theorem takeStamp?_eq_some :
    takeStamp? cs = some (taken, rest) ↔ cs = taken ++ rest ∧ IsStamp taken := by
  simp only [takeStamp?, Option.bind_eq_bind, Option.bind_eq_some_iff, Option.pure_def]
  constructor
  · rintro ⟨⟨time, cs₁⟩, htime, ⟨fraction, cs₂⟩, htake, cs₃, hmark, h⟩
    cases h
    obtain rfl := takeChar?_eq_some.mp hmark
    obtain ⟨rfl, hfraction⟩ := takeFraction?_eq_some.mp htake
    obtain ⟨rfl, hfit⟩ := takeShape?_eq_some.mp htime
    obtain ⟨year, month, day, hour, minute, second, hyear, hmonth, hday, hhour, hminute, hsecond,
      rfl⟩ := fits_stampShape.mp hfit
    exact ⟨by simp, year, month, day, hour, minute, second, fraction, hyear, hmonth, hday, hhour,
      hminute, hsecond, hfraction, by simp⟩
  · rintro ⟨rfl, year, month, day, hour, minute, second, fraction, hyear, hmonth, hday, hhour,
      hminute, hsecond, hfraction, rfl⟩
    have hfit := fits_stampShape.mpr ⟨year, month, day, hour, minute, second, hyear, hmonth, hday,
      hhour, hminute, hsecond, rfl⟩
    refine ⟨(_, fraction ++ 'Z' :: rest), takeShape?_eq_some.mpr ⟨by simp, hfit⟩,
      (fraction, 'Z' :: rest), takeFraction?_eq_some.mpr ⟨rfl, hfraction⟩, rest,
      takeChar?_eq_some.mpr rfl, by simp⟩

theorem IsStamp.append_inj {taken' rest' : Text} (h : IsStamp taken) (h' : IsStamp taken')
    (heq : taken ++ rest = taken' ++ rest') : taken = taken' ∧ rest = rest' := by
  have htake := takeStamp?_eq_some.mpr ⟨Eq.refl (taken ++ rest), h⟩
  rw [heq, takeStamp?_eq_some.mpr ⟨rfl, h'⟩] at htake
  cases htake
  exact ⟨rfl, rfl⟩

/-! ### Layouts -/

/-- A line as it is written. -/
structure Layout where
  stamp : Text
  /-- The blanks between the time and the thread. -/
  gap₁ : Text
  thread : Text
  gap₂ : Text
  level : Text
  gap₃ : Text
  target : Text
  /-- The line number, which may have zeros in front. -/
  digits : Text
  gap₄ : Text
  msg : Text

namespace Layout

def text (l : Layout) : Text :=
  l.stamp ++ (l.gap₁ ++ '[' :: (l.thread ++ ']' :: (l.gap₂ ++ (l.level ++ (l.gap₃ ++
    (l.target ++ ':' :: (l.digits ++ (l.gap₄ ++ l.msg))))))))

def parts (l : Layout) : Parts where
  stamp := l.stamp
  thread := l.thread
  level := l.level
  target := l.target
  line := digitsValue l.digits
  msg := l.msg

/-- The grammar: what each part is made of. -/
structure WellFormed (l : Layout) : Prop where
  stamp : IsStamp l.stamp
  gap₁ : IsRow isBlank l.gap₁
  thread : IsRow (· ≠ ']') l.thread
  gap₂ : IsRow isBlank l.gap₂
  level : IsRow isLevelLetter l.level
  gap₃ : IsRow isBlank l.gap₃
  target : IsRow (!isBlank ·) l.target
  digits : IsRow isAsciiDigit l.digits
  line_lt : digitsValue l.digits < wordLimit
  gap₄ : IsRow isBlank l.gap₄
  feed_not_mem_msg : '\n' ∉ l.msg

/-- The last blanks are all of them: the message does not begin with one. -/
def Tight (l : Layout) : Prop :=
  Stops isBlank l.msg

end Layout

theorem isBlank_of_isLevelLetter {c : Char} (h : isLevelLetter c = true) : isBlank c = false := by
  simp only [isLevelLetter, Bool.and_eq_true, decide_eq_true_eq, Char.le_def,
    UInt32.le_iff_toNat_le] at h
  have h : 65 ≤ c.toNat ∧ c.toNat ≤ 90 := h
  simp [isBlank]
  omega

theorem isBlank_of_isAsciiDigit {c : Char} (h : isAsciiDigit c = true) : isBlank c = false := by
  simp only [isAsciiDigit, Bool.and_eq_true, decide_eq_true_eq, Char.le_def,
    UInt32.le_iff_toNat_le] at h
  have h : 48 ≤ c.toNat ∧ c.toNat ≤ 57 := h
  simp [isBlank]
  omega

theorem isLevelLetter_of_isBlank {c : Char} (h : isBlank c = true) : isLevelLetter c = false :=
  Bool.eq_false_iff.mpr fun hc => by simp [isBlank_of_isLevelLetter hc] at h

theorem colon_not_mem {digits : Text} (h : IsRow isAsciiDigit digits) : ':' ∉ digits := fun hmem =>
  absurd (h.all _ hmem) (by decide)

/-- The target and the line number, which are read as one. -/
theorem splitTarget?_eq_some {target : Text} {n : Nat} : splitTarget? cs = some (target, n) ↔
    ∃ digits, cs = target ++ ':' :: digits ∧ target ≠ [] ∧ IsRow isAsciiDigit digits ∧
      digitsValue digits = n ∧ n < wordLimit := by
  simp only [splitTarget?, Option.bind_eq_bind, Option.bind_eq_some_iff, Option.pure_def]
  constructor
  · rintro ⟨⟨target', digits⟩, hcut, line, hline, h⟩
    split at h
    · cases h
    next hne =>
      cases h
      obtain ⟨rfl, -⟩ := cutAtLast?_eq_some.mp hcut
      exact ⟨digits, rfl, by simpa using hne, readWord?_eq_some.mp hline⟩
  · rintro ⟨digits, rfl, hne, hdigits, hvalue⟩
    refine ⟨(target, digits), cutAtLast?_eq_some.mpr ⟨rfl, colon_not_mem hdigits⟩, n,
      readWord?_eq_some.mpr ⟨hdigits, hvalue⟩, ?_⟩
    simp [hne]

namespace Layout

variable {l : Layout}

/-- The target and the line number are one row. -/
theorem WellFormed.origin (h : l.WellFormed) :
    IsRow (!isBlank ·) (l.target ++ ':' :: l.digits) := by
  refine ⟨by simp, fun c hc => ?_⟩
  rw [List.mem_append, List.mem_cons] at hc
  rcases hc with hc | rfl | hc
  · exact h.target.all c hc
  · decide
  · simp [isBlank_of_isAsciiDigit (h.digits.all c hc)]

/-- The text with the target and the line number as one row. -/
theorem text_eq (l : Layout) : l.text =
    l.stamp ++ (l.gap₁ ++ '[' :: (l.thread ++ ']' :: (l.gap₂ ++ (l.level ++ (l.gap₃ ++
      ((l.target ++ ':' :: l.digits) ++ (l.gap₄ ++ l.msg))))))) := by
  simp [text]

/-- Behind the time a line is read in rows, each of which stops where the next begins. -/
structure Rows (l : Layout) : Prop where
  gap₁ : ∀ rest, Stops isBlank ('[' :: rest)
  thread : ∀ rest, Stops (· ≠ ']') (']' :: rest)
  gap₂ : ∀ rest, Stops isBlank (l.level ++ rest)
  level : ∀ rest, Stops isLevelLetter (l.gap₃ ++ rest)
  gap₃ : ∀ rest, Stops isBlank ((l.target ++ ':' :: l.digits) ++ rest)
  origin : ∀ rest, Stops (!isBlank ·) (l.gap₄ ++ rest)

theorem WellFormed.rows (h : l.WellFormed) : l.Rows where
  gap₁ := stops_cons (by decide)
  thread := stops_cons (by decide)
  gap₂ := h.level.stops fun _ => isBlank_of_isLevelLetter
  level := h.gap₃.stops fun _ => isLevelLetter_of_isBlank
  gap₃ := h.origin.stops fun _ hc => by simpa using hc
  origin := h.gap₄.stops fun _ hc => by simpa using hc

/-- A line in a layout is read. -/
theorem WellFormed.parts?_eq_some (h : l.WellFormed) (htight : l.Tight) {raw : Text}
    (htext : l.text = dropEnding raw) : parts? raw = some l.parts := by
  have htarget := splitTarget?_eq_some.mpr
    ⟨l.digits, rfl, h.target.ne_nil, h.digits, rfl, h.line_lt⟩
  have hmsg : l.msg.contains '\n' = false := by simpa using h.feed_not_mem_msg
  unfold parts?
  rw [← htext, text_eq, takeStamp?_eq_some.mpr ⟨rfl, h.stamp⟩]
  simp only [Option.bind_eq_bind, Option.bind_some]
  rw [takeSome?_eq_some.mpr ⟨rfl, h.gap₁, h.rows.gap₁ _⟩]
  simp only [Option.bind_some, takeChar?_cons_self]
  rw [takeSome?_eq_some.mpr ⟨rfl, h.thread, h.rows.thread _⟩]
  simp only [Option.bind_some, takeChar?_cons_self]
  rw [takeSome?_eq_some.mpr ⟨rfl, h.gap₂, h.rows.gap₂ _⟩]
  simp only [Option.bind_some]
  rw [takeSome?_eq_some.mpr ⟨rfl, h.level, h.rows.level _⟩]
  simp only [Option.bind_some]
  rw [takeSome?_eq_some.mpr ⟨rfl, h.gap₃, h.rows.gap₃ _⟩]
  simp only [Option.bind_some]
  rw [takeSome?_eq_some.mpr ⟨rfl, h.origin, h.rows.origin _⟩]
  simp only [Option.bind_some, htarget]
  rw [takeSome?_eq_some.mpr ⟨rfl, h.gap₄, htight⟩]
  simp only [Option.bind_some, hmsg]
  rfl

/-- What is read has a layout. -/
theorem exists_of_parts? {raw : Text} {p : Parts} (h : parts? raw = some p) :
    ∃ l : Layout, l.WellFormed ∧ l.Tight ∧ l.text = dropEnding raw ∧ l.parts = p := by
  simp only [parts?, Option.bind_eq_bind, Option.bind_eq_some_iff, Option.pure_def, Prod.exists,
    takeStamp?_eq_some, takeSome?_eq_some, takeChar?_eq_some, splitTarget?_eq_some] at h
  obtain ⟨stamp, _, ⟨hraw, hstamp⟩, gap₁, _, ⟨rfl, hgap₁, -⟩, _, rfl, thread, _, ⟨rfl, hthread, -⟩,
    _, rfl, gap₂, _, ⟨rfl, hgap₂, -⟩, level, _, ⟨rfl, hlevel, -⟩, gap₃, _, ⟨rfl, hgap₃, -⟩, _, _,
    ⟨rfl, horigin, -⟩, target, line, ⟨digits, rfl, hne, hdigits, rfl, hlimit⟩, gap₄, msg,
    ⟨rfl, hgap₄, htight⟩, h⟩ := h
  split at h
  · cases h
  next hmsg =>
    cases h
    have htarget : IsRow (!isBlank ·) target :=
      ⟨hne, fun c hc => horigin.all c (List.mem_append_left _ hc)⟩
    refine ⟨⟨stamp, gap₁, thread, gap₂, level, gap₃, target, digits, gap₄, msg⟩, ⟨hstamp, hgap₁,
      hthread, hgap₂, hlevel, hgap₃, htarget, hdigits, hlimit, hgap₄, by simpa using hmsg⟩, htight,
      ?_, rfl⟩
    rw [hraw, text_eq]

/-- A text has one layout whose message does not begin with a blank. -/
theorem eq_of_text {l' : Layout} (h : l.WellFormed) (htight : l.Tight) (h' : l'.WellFormed)
    (htight' : l'.Tight) (htext : l.text = l'.text) : l = l' := by
  rw [text_eq, text_eq] at htext
  obtain ⟨hstamp, htext⟩ := h.stamp.append_inj h'.stamp htext
  obtain ⟨hgap₁, htext⟩ := h.gap₁.append_inj (h.rows.gap₁ _) h'.gap₁ (h'.rows.gap₁ _) htext
  obtain ⟨hthread, htext⟩ := h.thread.append_inj (h.rows.thread _) h'.thread (h'.rows.thread _)
    (List.tail_eq_of_cons_eq htext)
  obtain ⟨hgap₂, htext⟩ := h.gap₂.append_inj (h.rows.gap₂ _) h'.gap₂ (h'.rows.gap₂ _)
    (List.tail_eq_of_cons_eq htext)
  obtain ⟨hlevel, htext⟩ := h.level.append_inj (h.rows.level _) h'.level (h'.rows.level _) htext
  obtain ⟨hgap₃, htext⟩ := h.gap₃.append_inj (h.rows.gap₃ _) h'.gap₃ (h'.rows.gap₃ _) htext
  obtain ⟨horigin, htext⟩ := h.origin.append_inj (h.rows.origin _) h'.origin (h'.rows.origin _)
    htext
  obtain ⟨hgap₄, hmsg⟩ := h.gap₄.append_inj htight h'.gap₄ htight' htext
  have hcut := cutAtLast?_eq_some.mpr ⟨horigin, colon_not_mem h'.digits⟩
  rw [cutAtLast?_eq_some.mpr ⟨rfl, colon_not_mem h.digits⟩] at hcut
  obtain ⟨htarget, hdigits⟩ := Prod.mk.inj (Option.some.inj hcut)
  cases l
  cases l'
  simp_all

/-- Blanks at the beginning of the message can be counted to those before it. -/
theorem WellFormed.exists_tight (h : l.WellFormed) :
    ∃ l' : Layout, l'.WellFormed ∧ l'.Tight ∧ l'.text = l.text := by
  refine ⟨{ l with gap₄ := l.gap₄ ++ l.msg.takeWhile isBlank, msg := l.msg.dropWhile isBlank },
    { h with
      gap₄ := ⟨by simp [h.gap₄.ne_nil], fun c hc => ?_⟩
      feed_not_mem_msg := fun hmem => ?_ },
    stops_dropWhile isBlank l.msg, ?_⟩
  · rcases List.mem_append.mp hc with hc | hc
    · exact h.gap₄.all c hc
    · exact List.mem_takeWhile_imp hc
  · exact h.feed_not_mem_msg ((List.dropWhile_sublist isBlank).mem hmem)
  · simp [text]

end Layout

/-! ### What is read -/

/-- A text and what is left of it without one character at its end, if that stands there. -/
inductive DropsLast (c : Char) : Text → Text → Prop where
  | there (cs : Text) : DropsLast c (cs ++ [c]) cs
  | absent {cs : Text} (h : ∀ cs', cs ≠ cs' ++ [c]) : DropsLast c cs cs

/-- What a raw line is without its ending: one line feed, and before it one carriage return. -/
def Ended (raw s : Text) : Prop :=
  ∃ mid, DropsLast '\n' raw mid ∧ DropsLast '\r' mid s

/-- The event of a line, if its payload gives one as a string, or else its message contains one
of the keywords. -/
def Relevant (relevance : Relevance) (p : Parts) : Prop :=
  ∃ keyword ∈ relevance.keywords,
    (∃ o e, payload? p.msg = some o ∧ o.get? "event".toList = some (.string e) ∧ keyword <:+: e) ∨
      keyword <:+: p.msg

theorem dropLast?_iff {c : Char} {out : Text} :
    DropsLast c cs out ↔ dropEnding.dropLast? c cs = out := by
  unfold dropEnding.dropLast?
  constructor
  · rintro (_ | h)
    · simp
    · rw [if_neg]
      intro hlast
      obtain ⟨cs', hcs⟩ := List.getLast?_eq_some_iff.mp hlast
      exact h cs' hcs
  · rintro rfl
    split
    next hlast =>
      obtain ⟨cs', rfl⟩ := List.getLast?_eq_some_iff.mp hlast
      rw [List.dropLast_concat]
      exact .there cs'
    next hlast => exact .absent fun cs' hcs => hlast (by simp [hcs])

theorem ended_iff {raw s : Text} : Ended raw s ↔ s = dropEnding raw := by
  simp [Ended, dropLast?_iff, dropEnding, eq_comm]

/-- A record counts if its line does. -/
theorem accepts_toRecord {relevance : Relevance} {p : Parts} :
    relevance.accepts p.toRecord.event p.toRecord.msg = true ↔ Relevant relevance p := by
  have hmatch (cs : Text) : relevance.isMatch cs = true ↔
      ∃ keyword ∈ relevance.keywords, keyword <:+: cs := by
    simp [Relevance.isMatch, Text.hasPart_iff]
  have hevent (e : Text) : p.toRecord.event = some e ↔
      ∃ o, payload? p.msg = some o ∧ o.get? "event".toList = some (.string e) := by
    simp only [Parts.toRecord, Option.bind_eq_some_iff, eventOf?,
      Json.Value.asString?_eq_some, exists_eq_right]
  simp only [Relevance.accepts, Bool.or_eq_true, Option.any_eq_true, hmatch, hevent, Relevant]
  constructor
  · rintro (⟨e, ⟨o, ho, he⟩, keyword, hmem, hpart⟩ | ⟨keyword, hmem, hpart⟩)
    · exact ⟨keyword, hmem, .inl ⟨o, e, ho, he, hpart⟩⟩
    · exact ⟨keyword, hmem, .inr hpart⟩
  · rintro ⟨keyword, hmem, ⟨o, e, ho, he, hpart⟩ | hpart⟩
    · exact .inl ⟨e, ⟨o, ho, he⟩, keyword, hmem, hpart⟩
    · exact .inr ⟨keyword, hmem, hpart⟩

theorem parse?_eq_some {relevance : Relevance} {raw : Text} {r : Record} :
    parse? relevance raw = some r ↔
      ∃ p, parts? raw = some p ∧ Relevant relevance p ∧ p.toRecord = r := by
  simp only [parse?, Option.bind_eq_bind, Option.bind_eq_some_iff, Option.ite_none_right_eq_some,
    accepts_toRecord, Option.pure_def, Option.some.injEq]

/-- The keywords are those that were given, but for empty ones. -/
theorem mem_ofKeywords {keywords : List Text} {keyword : Text} :
    keyword ∈ (Relevance.ofKeywords keywords).keywords ↔ keyword ∈ keywords ∧ keyword ≠ [] := by
  simp [Relevance.ofKeywords]

/-- The reader accepts just the lines of the grammar. Of a raw line without its ending it reads
the one layout whose message does not begin with a blank, and there is one as soon as there is
any. A record comes of it if and only if the line is relevant, and holds its parts. -/
theorem reads_grammar (given : List Text) (raw : Text) :
    let relevance := Relevance.ofKeywords given
    (∀ keyword, keyword ∈ relevance.keywords ↔ keyword ∈ given ∧ keyword ≠ []) ∧
    ∃ s, (∀ s', Ended raw s' ↔ s' = s) ∧
      ((∃ p, parts? raw = some p) ↔ ∃ l : Layout, l.WellFormed ∧ l.text = s) ∧
      (∀ p, parts? raw = some p →
        ∃ l : Layout, (l.WellFormed ∧ l.Tight ∧ l.text = s) ∧ l.parts = p ∧
          ∀ l' : Layout, l'.WellFormed → l'.Tight → l'.text = s → l' = l) ∧
      ∀ r, parse? relevance raw = some r ↔
        ∃ p, parts? raw = some p ∧ Relevant relevance p ∧ p.toRecord = r := by
  refine ⟨fun _ => mem_ofKeywords, dropEnding raw, fun s' => ended_iff, ⟨?_, ?_⟩, ?_,
    fun r => parse?_eq_some⟩
  · rintro ⟨p, hp⟩
    obtain ⟨l, hl, -, htext, -⟩ := Layout.exists_of_parts? hp
    exact ⟨l, hl, htext⟩
  · rintro ⟨l, hl, htext⟩
    obtain ⟨l', hl', htight, htext'⟩ := hl.exists_tight
    exact ⟨l'.parts, hl'.parts?_eq_some htight (htext'.trans htext)⟩
  · intro p hp
    obtain ⟨l, hl, htight, htext, hparts⟩ := Layout.exists_of_parts? hp
    exact ⟨l, ⟨hl, htight, htext⟩, hparts, fun l' hl' htight' htext' =>
      Layout.eq_of_text hl' htight' hl htight (htext'.trans htext.symm)⟩

/-- A target with a colon in it, a number with zeros in front, and a carriage return that ends
the message. -/
def colonLine : Text :=
  "2024-01-01T00:00:00.5Z\t[t [0] INFO a:1:007  Vote\r\r\n".toList

theorem reads_grammar_colon : ∃ l : Layout, l.WellFormed ∧ l.Tight ∧ Ended colonLine l.text ∧
    l.thread = "t [0".toList ∧ l.target = "a:1".toList ∧ l.parts.line = 7 ∧
      l.msg = "Vote\r".toList ∧ (parse? (.ofKeywords ["Vote".toList]) colonLine).isSome := by
  obtain ⟨hkeywords, s, hended, -, hlayout, hparse⟩ := reads_grammar ["Vote".toList] colonLine
  have hparts : (parts? colonLine).map (fun p => (p.thread, p.target, p.line, p.msg)) =
      some ("t [0".toList, "a:1".toList, 7, "Vote\r".toList) := by
    decide +kernel
  obtain ⟨p, hp, hfields⟩ := Option.map_eq_some_iff.mp hparts
  simp only [Prod.mk.injEq] at hfields
  obtain ⟨hthread, htarget, hline, hmsg⟩ := hfields
  obtain ⟨l, ⟨hl, htight, htext⟩, rfl, -⟩ := hlayout p hp
  have hrelevant : Relevant (.ofKeywords ["Vote".toList]) l.parts :=
    ⟨"Vote".toList, (hkeywords _).mpr ⟨by simp, by decide⟩, .inr ⟨[], ['\r'], by rw [hmsg]; rfl⟩⟩
  have hsome := (hparse l.parts.toRecord).mpr ⟨l.parts, hp, hrelevant, rfl⟩
  exact ⟨l, hl, htight, (hended l.text).mpr htext, hthread, htarget, hline, hmsg,
    Option.isSome_of_eq_some hsome⟩

end Line

end NodeLogs
