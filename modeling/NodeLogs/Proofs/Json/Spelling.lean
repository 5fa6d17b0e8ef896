import Mathlib.Data.List.Basic
import Mathlib.Data.List.TakeWhile
import NodeLogs.Proofs.Json.Decoding

/-! What is decoded is spelled. Whatever a reader takes off the front of a text spells what the
reader returns, so that the decoder accepts just the texts of the grammar, with what they spell.
And what is spelled is a value as it is kept. -/

namespace NodeLogs.Json

theorem commaSeparated_cons_of_ne_nil (piece : Text) {pieces : List Text} (h : pieces ≠ []) :
    commaSeparated (piece :: pieces) = piece ++ ',' :: commaSeparated pieces := by
  obtain ⟨second, pieces, rfl⟩ := List.exists_cons_of_ne_nil h
  rfl

theorem IsSpaces.nil : IsSpaces [] :=
  List.forall_mem_nil _

namespace Decoder

theorem exists_spaces (cs : Text) : ∃ space, IsSpaces space ∧ cs = space ++ skipSpace cs :=
  ⟨cs.takeWhile isSpace, fun _ hc => List.mem_takeWhile_imp hc,
    List.takeWhile_append_dropWhile.symm⟩

variable {cs rest : Text}

/-! ### Numerals -/

theorem digits?_spec {digits : Text} (h : digits? cs = some (digits, rest)) :
    cs = digits ++ rest ∧ IsDigits digits := by
  unfold digits? at h
  rw [List.span_eq_takeWhile_dropWhile] at h
  split at h
  · cases h
  next taken behind hne hspan =>
    obtain ⟨rfl, rfl⟩ := Prod.mk.inj (Option.some.inj h)
    obtain ⟨rfl, rfl⟩ := Prod.mk.inj hspan
    exact ⟨List.takeWhile_append_dropWhile.symm, hne, fun _ hc => List.mem_takeWhile_imp hc⟩

theorem whole?_spec {whole : Text} (h : whole? cs = some (whole, rest)) :
    cs = whole ++ rest ∧ IsWhole whole := by
  unfold whole? at h
  split at h
  · cases h
  next hzero =>
    obtain ⟨hcs, hdigits⟩ := digits?_spec h
    refine ⟨hcs, hdigits, ?_⟩
    rintro (_ | ⟨c, more⟩) rfl
    · rfl
    · exact absurd h (hzero c more rest)

theorem fraction?_spec {fraction : Text} (h : fraction? cs = some (fraction, rest)) :
    cs = fraction ++ rest ∧ IsFraction fraction := by
  unfold fraction? at h
  split at h
  next cs =>
    obtain ⟨⟨digits, rest'⟩, hread, heq⟩ := Option.map_eq_some_iff.mp h
    obtain ⟨rfl, rfl⟩ := Prod.mk.inj heq
    obtain ⟨rfl, hdigits⟩ := digits?_spec hread
    exact ⟨rfl, .some hdigits⟩
  · obtain ⟨rfl, rfl⟩ := Prod.mk.inj (Option.some.inj h)
    exact ⟨rfl, .none⟩

/-- A sign is taken, or a plus is put where there is none. -/
theorem exponentSign_spec (cs : Text) :
    (∃ sign behind, (sign = '+' ∨ sign = '-') ∧ cs = sign :: behind ∧
      exponentSign cs = (sign, behind)) ∨ exponentSign cs = ('+', cs) := by
  unfold exponentSign
  split
  · exact .inl ⟨_, _, .inr rfl, rfl, rfl⟩
  · exact .inl ⟨_, _, .inl rfl, rfl, rfl⟩
  · exact .inr rfl

theorem exponent?_spec {kept : Text} (h : exponent? cs = some (kept, rest)) :
    ∃ written, cs = written ++ rest ∧ SpellsExponent written kept := by
  unfold exponent? at h
  split at h
  next c cs =>
    split at h
    next he =>
      have he : c = 'e' ∨ c = 'E' := by simpa using he
      rcases exponentSign_spec cs with ⟨sign, behind, hsign, rfl, hsigned⟩ | hbare
      · rw [hsigned] at h
        obtain ⟨⟨digits, rest'⟩, hread, heq⟩ := Option.map_eq_some_iff.mp h
        obtain ⟨rfl, rfl⟩ := Prod.mk.inj heq
        obtain ⟨rfl, hdigits⟩ := digits?_spec hread
        exact ⟨c :: sign :: digits, rfl, .signed he hsign hdigits⟩
      · rw [hbare] at h
        obtain ⟨⟨digits, rest'⟩, hread, heq⟩ := Option.map_eq_some_iff.mp h
        obtain ⟨rfl, rfl⟩ := Prod.mk.inj heq
        obtain ⟨rfl, hdigits⟩ := digits?_spec hread
        exact ⟨c :: digits, rfl, .bare he hdigits⟩
    · obtain ⟨rfl, rfl⟩ := Prod.mk.inj (Option.some.inj h)
      exact ⟨[], rfl, .none⟩
  · obtain ⟨rfl, rfl⟩ := Prod.mk.inj (Option.some.inj h)
    exact ⟨[], rfl, .none⟩

theorem minus_spec (cs : Text) :
    cs = (minus cs).1 ++ (minus cs).2 ∧ ((minus cs).1 = [] ∨ (minus cs).1 = ['-']) := by
  unfold minus
  split
  · exact ⟨rfl, .inr rfl⟩
  · exact ⟨rfl, .inl rfl⟩

theorem number?_spec {v : Value} (h : number? cs = some (v, rest)) :
    ∃ written kept, cs = written ++ rest ∧ SpellsNumeral written kept ∧ v = .number kept := by
  simp only [number?, Option.bind_eq_bind, Option.bind_eq_some_iff, Option.pure_def,
    Option.some.injEq, Prod.mk.injEq] at h
  obtain ⟨⟨whole, cs₁⟩, hread₁, ⟨fraction, cs₂⟩, hread₂, ⟨kept, cs₃⟩, hread₃, rfl, rfl⟩ := h
  obtain ⟨hcs, hsign⟩ := minus_spec cs
  obtain ⟨hcs₁, hwhole⟩ := whole?_spec hread₁
  obtain ⟨hcs₂, hfraction⟩ := fraction?_spec hread₂
  obtain ⟨written, hcs₃, hexponent⟩ := exponent?_spec hread₃
  dsimp only at hcs₂ hcs₃
  rw [hcs₁, hcs₂, hcs₃] at hcs
  exact ⟨_, _, hcs.trans (by simp), .mk hsign hwhole hfraction hexponent, rfl⟩

/-! ### Strings -/

/-- Digits of a code unit, of which some are missing, and what they make up so far. -/
structure UnitDigits (digits : Text) (value missing : Nat) : Prop where
  missing_pos : 0 < missing
  length : digits.length + missing = 4
  value_eq : digits.foldlM (fun n c => (hexValue? c).map (0x10 * n + ·)) 0 = some value

/-- What was read of a string since its last complete character. -/
inductive Opened : StringState → Text → Prop
  | plain : Opened .plain []
  | escape : Opened .escape ['\\']
  | unit {digits : Text} {value missing : Nat} (h : UnitDigits digits value missing) :
      Opened (.unit none value missing) ('\\' :: 'u' :: digits)
  | half {a b c d : Char} {n : Nat} (hfirst : codeUnit? a b c d = some n)
      (hhigh : isHighHalf n = true) : Opened (.half n) ['\\', 'u', a, b, c, d]
  | halfEscape {a b c d : Char} {n : Nat} (hfirst : codeUnit? a b c d = some n)
      (hhigh : isHighHalf n = true) : Opened (.halfEscape n) ['\\', 'u', a, b, c, d, '\\']
  | second {a b c d : Char} {n : Nat} {digits : Text} {value missing : Nat}
      (hfirst : codeUnit? a b c d = some n) (hhigh : isHighHalf n = true)
      (h : UnitDigits digits value missing) :
      Opened (.unit (some n) value missing)
        ('\\' :: 'u' :: a :: b :: c :: d :: '\\' :: 'u' :: digits)

theorem UnitDigits.nil : UnitDigits [] 0 4 :=
  ⟨by decide, rfl, rfl⟩

/-- One more digit, which is not the last. -/
theorem UnitDigits.concat {digits : Text} {value missing digit : Nat} {c : Char}
    (h : UnitDigits digits value missing) (hc : hexValue? c = some digit)
    (hmissing : ¬ missing ≤ 1) :
    UnitDigits (digits ++ [c]) (0x10 * value + digit) (missing - 1) := by
  refine ⟨by omega, ?_, by simp [h.value_eq, hc]⟩
  have := h.length
  rw [List.length_append, List.length_singleton]
  omega

/-- The last digit completes a code unit. -/
theorem UnitDigits.codeUnit? {digits : Text} {value missing digit : Nat} {d : Char}
    (h : UnitDigits digits value missing) (hd : hexValue? d = some digit)
    (hmissing : missing ≤ 1) :
    ∃ a b c, digits = [a, b, c] ∧ Json.codeUnit? a b c d = some (0x10 * value + digit) := by
  obtain ⟨hpos, hlength, hvalue⟩ := h
  obtain ⟨a, b, c, rfl⟩ := List.length_eq_three.mp (show digits.length = 3 by omega)
  refine ⟨a, b, c, rfl, ?_⟩
  simp only [List.foldlM_cons, List.foldlM_nil, Option.bind_eq_bind, Option.bind_eq_some_iff,
    Option.map_eq_some_iff, Option.pure_def, Option.some.injEq] at hvalue
  obtain ⟨-, ⟨a', ha, rfl⟩, -, ⟨b', hb, rfl⟩, -, ⟨c', hc, rfl⟩, rfl⟩ := hvalue
  simp [Json.codeUnit?, ha, hb, hc, hd]

/-- What a step of the string reader comes to, when the piece is what was read since the last
complete character. -/
inductive StepReads (piece : Text) : Option Char → StringState → Prop
  | goesOn {next : StringState} (h : Opened next piece) : StepReads piece none next
  | complete {d : Char} (h : ∀ cs s, SpellsString cs s → SpellsString (piece ++ cs) (d :: s)) :
      StepReads piece (some d) .plain

section Steps

variable {next : StringState} {c : Char} {added : Option Char}

theorem plain_step (hquote : c ≠ '"') (h : stringStep? .plain c = some (added, next)) :
    StepReads [c] added next := by
  simp only [stringStep?] at h
  split at h
  next hslash =>
    cases h
    rw [hslash]
    exact .goesOn .escape
  next hslash =>
    split at h
    · cases h
    next hcontrol =>
      cases h
      exact .complete fun _ _ => .plain hquote hslash (Nat.not_lt.mp hcontrol)

theorem escape_step (h : stringStep? .escape c = some (added, next)) :
    StepReads ['\\', c] added next := by
  simp only [stringStep?] at h
  split at h
  next hu =>
    cases h
    rw [hu]
    exact .goesOn (.unit .nil)
  · obtain ⟨d, hletter, heq⟩ := Option.map_eq_some_iff.mp h
    cases heq
    exact .complete fun _ _ => .letter hletter

/-- A digit of a code unit: the unit is complete with it, or another digit is to come. -/
theorem unit_step {high : Option Nat} {digits : Text} {value missing : Nat}
    (hdigits : UnitDigits digits value missing)
    (h : stringStep? (.unit high value missing) c = some (added, next)) :
    (∃ a b d n, digits = [a, b, d] ∧ codeUnit? a b d c = some n ∧
      afterUnit? high n = some (added, next)) ∨
    ∃ value missing, added = none ∧ next = .unit high value missing ∧
      UnitDigits (digits ++ [c]) value missing := by
  simp only [stringStep?] at h
  split at h
  · cases h
  next digit hdigit =>
    split at h
    next hmissing =>
      obtain ⟨a, b, d, hthree, hunit⟩ := hdigits.codeUnit? hdigit hmissing
      exact .inl ⟨a, b, d, _, hthree, hunit, h⟩
    next hmissing =>
      cases h
      exact .inr ⟨_, _, rfl, rfl, hdigits.concat hdigit hmissing⟩

variable {a b d e : Char} {n : Nat} (hunit : codeUnit? a b d e = some n)
include hunit

theorem afterUnit?_reads (h : afterUnit? none n = some (added, next)) :
    StepReads ['\\', 'u', a, b, d, e] added next := by
  simp only [afterUnit?] at h
  split at h
  next hhigh =>
    cases h
    exact .goesOn (.half hunit hhigh)
  next hhigh =>
    split at h
    · cases h
    next hlow =>
      cases h
      exact .complete fun _ _ =>
        .unit hunit (Bool.eq_false_iff.mpr hhigh) (Bool.eq_false_iff.mpr hlow)

theorem afterHalves?_reads {a' b' d' e' : Char} {high : Nat}
    (hfirst : codeUnit? a' b' d' e' = some high) (hhigh : isHighHalf high = true)
    (h : afterUnit? (some high) n = some (added, next)) :
    StepReads ['\\', 'u', a', b', d', e', '\\', 'u', a, b, d, e] added next := by
  simp only [afterUnit?] at h
  split at h
  next hlow =>
    cases h
    exact .complete fun _ _ => .halves hfirst hhigh hunit hlow
  · cases h

end Steps

/-- One character of a string: it is read on, or the character that was open is complete. -/
theorem stringStep?_spec {state next : StringState} {c : Char} {added : Option Char} {piece : Text}
    (hopened : Opened state piece) (hquote : state = .plain → c ≠ '"')
    (h : stringStep? state c = some (added, next)) : StepReads (piece ++ [c]) added next := by
  cases hopened with
  | plain => exact plain_step (hquote rfl) h
  | escape => exact escape_step h
  | unit hdigits =>
    rcases unit_step hdigits h with ⟨_, _, _, _, rfl, hunit, h⟩ | ⟨_, _, rfl, rfl, hmore⟩
    · exact afterUnit?_reads hunit h
    · exact .goesOn (.unit hmore)
  | half hfirst hhigh =>
    simp only [stringStep?] at h
    split at h
    next hslash =>
      cases h
      rw [hslash]
      exact .goesOn (.halfEscape hfirst hhigh)
    · cases h
  | halfEscape hfirst hhigh =>
    simp only [stringStep?] at h
    split at h
    next hu =>
      cases h
      rw [hu]
      exact .goesOn (.second hfirst hhigh .nil)
    · cases h
  | second hfirst hhigh hdigits =>
    rcases unit_step hdigits h with ⟨_, _, _, _, rfl, hunit, h⟩ | ⟨_, _, rfl, rfl, hmore⟩
    · exact afterHalves?_reads hunit hfirst hhigh h
    · exact .goesOn (.second hfirst hhigh hmore)

/-- What was taken off is the rest of the string and its closing quote. -/
theorem stringBody?_spec {state : StringState} {done s piece : Text} (hopened : Opened state piece)
    (h : stringBody? state done cs = some (s, rest)) :
    ∃ body t, cs = body ++ '"' :: rest ∧ SpellsString (piece ++ body) t ∧
      s = done.reverse ++ t := by
  induction cs generalizing state done piece with
  | nil => cases h
  | cons c cs ih =>
    by_cases hend : state = .plain ∧ c = '"'
    · obtain ⟨rfl, rfl⟩ := hend
      cases hopened
      obtain ⟨rfl, rfl⟩ := Prod.mk.inj (Option.some.inj h)
      exact ⟨[], [], rfl, .nil, (List.append_nil _).symm⟩
    have hquote : state = .plain → c ≠ '"' := fun hplain hc => hend ⟨hplain, hc⟩
    rw [stringBody?_cons hquote] at h
    obtain ⟨⟨added, next⟩, hstep, h⟩ := Option.bind_eq_some_iff.mp h
    cases stringStep?_spec hopened hquote hstep with
    | goesOn hnext =>
      obtain ⟨body, t, rfl, ht, rfl⟩ := ih hnext h
      exact ⟨c :: body, t, rfl, by simpa using ht, rfl⟩
    | complete hspells =>
      obtain ⟨body, t, rfl, ht, rfl⟩ := ih .plain h
      exact ⟨c :: body, _ :: t, rfl, by simpa using hspells body t ht, by simp⟩

/-- Between its quotes stands what spells the string. -/
theorem string?_spec {s : Text} (h : stringBody? .plain [] cs = some (s, rest)) :
    ∃ body, cs = body ++ '"' :: rest ∧ SpellsString body s := by
  obtain ⟨body, t, hcs, ht, rfl⟩ := stringBody?_spec .plain h
  exact ⟨body, hcs, ht⟩

/-! ### Values -/

/-- Whatever a reader takes off a text spells what it returns. -/
def Takes (element : Text → Option (Value × Text)) (depth : Nat) : Prop :=
  ∀ ⦃cs v rest⦄, element cs = some (v, rest) →
    ∃ written, cs = written ++ rest ∧ Spells depth written v

theorem takes_number? (depth : Nat) : Takes number? depth := by
  intro cs v rest h
  obtain ⟨written, kept, rfl, hspells, rfl⟩ := number?_spec h
  exact ⟨written, rfl, .number hspells⟩

theorem takes_word? {word : Text} {v : Value} {depth : Nat} (hv : Spells depth word v) :
    Takes (word? word v) depth := by
  intro cs w rest h
  unfold word? at h
  split at h
  next hword =>
    obtain ⟨rfl, rfl⟩ := Prod.mk.inj (Option.some.inj h)
    obtain ⟨rest, rfl⟩ := List.isPrefixOf_iff_prefix.mp hword
    exact ⟨word, by rw [List.drop_left], hv⟩
  · cases h

theorem takes_scalar? (depth : Nat) : Takes scalar? depth := by
  intro cs v rest h
  unfold scalar? at h
  split at h
  · obtain ⟨⟨s, rest'⟩, hread, heq⟩ := Option.map_eq_some_iff.mp h
    obtain ⟨rfl, rfl⟩ := Prod.mk.inj heq
    obtain ⟨body, rfl, hbody⟩ := string?_spec hread
    exact ⟨'"' :: body ++ ['"'], by simp, .string hbody⟩
  · exact takes_word? .true h
  · exact takes_word? .false h
  · exact takes_word? .null h
  · exact takes_number? depth h

section Containers

variable {element : Text → Option (Value × Text)} {depth : Nat}

theorem takes_items? (h : Takes element depth) {fuel : Nat} {done : List Value} {v : Value}
    (hitems : items? element fuel done cs = some (v, rest)) :
    ∃ items ≠ [], cs = commaSeparated (items.map Prod.fst) ++ ']' :: rest ∧
      v = .array (done.reverse ++ items.map Prod.snd) ∧
      ∀ item ∈ items, Spells depth item.1 item.2 := by
  induction fuel generalizing cs done with
  | zero => cases hitems
  | succ fuel ih =>
    unfold items? at hitems
    split at hitems
    · cases hitems
    next first behind hread =>
      obtain ⟨before, hbefore, hcs⟩ := exists_spaces cs
      obtain ⟨written, hwritten, hspells⟩ := h hread
      obtain ⟨after, hafter, hbehind⟩ := exists_spaces behind
      have hfirst : Spells depth (before ++ written ++ after) first :=
        .spaced hbefore hspells hafter
      split at hitems
      next rest' hcomma =>
        obtain ⟨items, hne, rfl, rfl, hall⟩ := ih hitems
        refine ⟨(before ++ written ++ after, first) :: items, by simp, ?_, by simp,
          List.forall_mem_cons.mpr ⟨hfirst, hall⟩⟩
        rw [hcs, hwritten, hbehind, hcomma, List.map_cons,
          commaSeparated_cons_of_ne_nil _ (by simpa using hne)]
        simp
      next rest' hclose =>
        obtain ⟨rfl, rfl⟩ := Prod.mk.inj (Option.some.inj hitems)
        refine ⟨[(before ++ written ++ after, first)], by simp, ?_, by simp, by simpa using hfirst⟩
        rw [hcs, hwritten, hbehind, hclose]
        simp [commaSeparated]
      · cases hitems

theorem member?_spec {key : Text} {v : Value} (h : Takes element depth)
    (hmember : member? element cs = some (key, v, rest)) :
    ∃ m : Member, cs = m.text ++ rest ∧ m.key = key ∧ m.value = v ∧ SpellsMember depth m := by
  unfold member? at hmember
  obtain ⟨before, hbefore, hcs⟩ := exists_spaces cs
  split at hmember
  next cs' hquote =>
    split at hmember
    · cases hmember
    next key' behind hread =>
      obtain ⟨spelling, rfl, hkey⟩ := string?_spec hread
      obtain ⟨after, hafter, hbehind⟩ := exists_spaces behind
      split at hmember
      next rest' hcolon =>
        obtain ⟨⟨w, rest''⟩, hread, heq⟩ := Option.map_eq_some_iff.mp hmember
        simp only [Prod.mk.injEq] at heq
        obtain ⟨rfl, rfl, rfl⟩ := heq
        obtain ⟨space, hspace, hrest⟩ := exists_spaces rest'
        obtain ⟨written, hwritten, hspells⟩ := h hread
        refine ⟨⟨before, spelling, after, space ++ written, key', w⟩, ?_, rfl, rfl,
          ⟨hbefore, hafter⟩, hkey, ?_⟩
        · rw [hcs, hquote, hbehind, hcolon, hrest, hwritten]
          simp [Member.text]
        · have hspaced := Spells.spaced hspace hspells .nil
          rwa [List.append_nil] at hspaced
      · cases hmember
  · cases hmember

theorem takes_members? (h : Takes element depth) {fuel : Nat} {done : Object} {v : Value}
    (hmembers : members? element fuel done cs = some (v, rest)) :
    ∃ members ≠ [], cs = commaSeparated (members.map Member.text) ++ '}' :: rest ∧
      v = .object (members.foldl Member.addTo done) ∧ ∀ m ∈ members, SpellsMember depth m := by
  induction fuel generalizing cs done with
  | zero => cases hmembers
  | succ fuel ih =>
    unfold members? at hmembers
    split at hmembers
    · cases hmembers
    next key w behind hread =>
      obtain ⟨m, rfl, rfl, rfl, hm⟩ := member?_spec h hread
      obtain ⟨after, hafter, hbehind⟩ := exists_spaces behind
      have htext : ({ m with written := m.written ++ after } : Member).text = m.text ++ after := by
        simp [Member.text]
      split at hmembers
      next rest' hcomma =>
        obtain ⟨members, hne, rfl, rfl, hall⟩ := ih hmembers
        refine ⟨{ m with written := m.written ++ after } :: members, by simp, ?_, rfl,
          List.forall_mem_cons.mpr ⟨hm.spaced hafter, hall⟩⟩
        rw [hbehind, hcomma, List.map_cons, commaSeparated_cons_of_ne_nil _ (by simpa using hne),
          htext]
        simp
      next rest' hclose =>
        obtain ⟨rfl, rfl⟩ := Prod.mk.inj (Option.some.inj hmembers)
        refine ⟨[{ m with written := m.written ++ after }], by simp, ?_, rfl,
          by simpa using hm.spaced hafter⟩
        rw [hbehind, hclose, List.map_singleton, htext]
        simp [commaSeparated]
      · cases hmembers

end Containers

theorem takes_value? (size depth : Nat) : Takes (value? size depth) depth := by
  induction depth with
  | zero =>
    intro cs v rest h
    unfold value? at h
    split at h
    · cases h
    · cases h
    · exact takes_scalar? 0 h
  | succ depth ih =>
    intro cs v rest h
    unfold value? at h
    split at h
    next behind =>
      obtain ⟨space, hspace, hbehind⟩ := exists_spaces behind
      split at h
      next rest' hclose =>
        obtain ⟨rfl, rfl⟩ := Prod.mk.inj (Option.some.inj h)
        exact ⟨'[' :: space ++ [']'], by rw [hbehind, hclose]; simp, .emptyArray hspace⟩
      · obtain ⟨items, hne, rfl, rfl, hall⟩ := takes_items? ih h
        exact ⟨_, by simp, .array hne hall⟩
    next behind =>
      obtain ⟨space, hspace, hbehind⟩ := exists_spaces behind
      split at h
      next rest' hclose =>
        obtain ⟨rfl, rfl⟩ := Prod.mk.inj (Option.some.inj h)
        exact ⟨'{' :: space ++ ['}'], by rw [hbehind, hclose]; simp, .emptyObject hspace⟩
      · obtain ⟨members, hne, rfl, rfl, hall⟩ := takes_members? ih h
        exact ⟨_, by simp, .object hne (fun m hm => (hall m hm).spaces)
          (fun m hm => (hall m hm).key) fun m hm => (hall m hm).value⟩
    · exact takes_scalar? _ h

end Decoder

/-- A text is decoded to a value just if it spells it. -/
theorem decodeWithin?_eq_some {depth : Nat} {cs : Text} {v : Value} :
    decodeWithin? depth cs = some v ↔ Spells depth cs v := by
  refine ⟨fun h => ?_, Spells.decodeWithin?⟩
  unfold decodeWithin? at h
  split at h
  next w rest hread =>
    split at h
    next hrest =>
      obtain rfl := Option.some.inj h
      obtain ⟨before, hbefore, hcs⟩ := Decoder.exists_spaces cs
      obtain ⟨written, hwritten, hspells⟩ := Decoder.takes_value? _ _ hread
      obtain ⟨after, hafter, hbehind⟩ := Decoder.exists_spaces rest
      rw [List.isEmpty_iff] at hrest
      rw [hrest, List.append_nil] at hbehind
      rw [hcs, hwritten, hbehind, ← List.append_assoc]
      exact .spaced hbefore hspells hafter
    · cases h
  · cases h

theorem decodeObject?_eq_some {cs : Text} {o : Object} :
    decodeObject? cs = some o ↔ Spells nestingLimit cs (.object o) := by
  rw [← decodeWithin?_eq_some, decodeObject?, decode?]
  cases decodeWithin? nestingLimit cs with
  | none => simp
  | some v => cases v <;> simp

/-! ### What is spelled is kept -/

theorem SpellsExponent.kept {written kept : Text} (h : SpellsExponent written kept) :
    SpellsExponent kept kept := by
  cases h with
  | none => exact .none
  | bare _ hdigits => exact .signed (.inl rfl) (.inl rfl) hdigits
  | signed _ hsign hdigits => exact .signed (.inl rfl) hsign hdigits

theorem SpellsNumeral.kept {written kept : Text} (h : SpellsNumeral written kept) :
    IsNumeral kept := by
  cases h with
  | mk hsign hwhole hfraction hexponent => exact .mk hsign hwhole hfraction hexponent.kept

/-- Members are added one after another, each key once. -/
theorem kept_addTo {d : Nat} {members : List Member} (h : ∀ m ∈ members, m.value.Kept d)
    {done : Object} (hkeys : (done.map Prod.fst).Nodup) (hdone : ∀ p ∈ done, p.2.Kept d) :
    (Value.object (members.foldl Member.addTo done)).Kept (d + 1) := by
  induction members generalizing done with
  | nil => exact .object hkeys hdone
  | cons m members ih =>
    obtain ⟨hm, hrest⟩ := List.forall_mem_cons.mp h
    refine ih hrest (Keyed.nodup_keys_set m.key m.value hkeys) fun p hp => ?_
    rcases Keyed.mem_set hp with rfl | hp
    · exact hm
    · exact hdone p hp

theorem Spells.kept {d : Nat} {cs : Text} {v : Value} (h : Spells d cs v) : v.Kept d := by
  induction h with
  | null => exact .null
  | true => exact .bool Bool.true
  | false => exact .bool Bool.false
  | number h => exact .number h.kept
  | string => exact .string _
  | emptyArray => exact .array (List.forall_mem_nil _)
  | array _ _ ih =>
    refine .array fun v hv => ?_
    obtain ⟨item, hitem, rfl⟩ := List.mem_map.mp hv
    exact ih item hitem
  | emptyObject => exact .object List.nodup_nil (List.forall_mem_nil _)
  | object _ _ _ _ ih => exact kept_addTo ih List.nodup_nil (List.forall_mem_nil _)
  | spaced _ _ _ ih => exact ih

theorem kept_of_decodeWithin? {depth : Nat} {cs : Text} {v : Value}
    (h : decodeWithin? depth cs = some v) : v.Kept depth :=
  (decodeWithin?_eq_some.mp h).kept

/-- A decoded object is kept. -/
theorem kept_of_decodeObject? {cs : Text} {o : Object} (h : decodeObject? cs = some o) :
    (Value.object o).Kept nestingLimit :=
  (decodeObject?_eq_some.mp h).kept

end NodeLogs.Json
