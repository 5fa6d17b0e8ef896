import Mathlib.Data.List.TakeDrop
import NodeLogs.Proofs.Json.Grammar

/-! The decoder and the grammar. What spells a value is decoded to it, by a reader
that takes just that off the front. -/

namespace NodeLogs.Json

namespace Decoder

/-! ### White space and what may follow -/

/-- No character of the class at the front. -/
def StartsWithout (p : Char → Bool) (cs : Text) : Prop :=
  ∀ c rest, cs = c :: rest → p c = false

/-- Nothing with which a numeral would go on. -/
def Ends (rest : Text) : Prop :=
  StartsWithout isNumeralChar rest

theorem startsWithout_cons {p : Char → Bool} {c : Char} (h : p c = false) (cs : Text) :
    StartsWithout p (c :: cs) := by
  rintro d rest hcs
  obtain ⟨rfl, rfl⟩ := List.cons.inj hcs
  exact h

theorem Ends.digits {rest : Text} (h : Ends rest) : StartsWithout isAsciiDigit rest := by
  intro c cs hcs
  have := h c cs hcs
  simp only [isNumeralChar, Bool.or_eq_false_iff] at this
  exact this.1.1.1.1.1

theorem skipSpace_append {space : Text} (h : IsSpaces space) (cs : Text) :
    skipSpace (space ++ cs) = skipSpace cs :=
  List.dropWhile_append_of_pos h

theorem skipSpace_cons {c : Char} (h : isSpace c = false) (cs : Text) :
    skipSpace (c :: cs) = c :: cs := by
  simp [skipSpace, h]

theorem isNumeralChar_space {c : Char} (h : isSpace c = true) : isNumeralChar c = false := by
  simp only [isSpace, Bool.or_eq_true, beq_iff_eq] at h
  rcases h with ((rfl | rfl) | rfl) | rfl <;> rfl

theorem Ends.spaced {space rest : Text} (hspace : IsSpaces space) (h : Ends rest) :
    Ends (space ++ rest) := by
  cases space with
  | nil => exact h
  | cons c space => exact startsWithout_cons (isNumeralChar_space (hspace c List.mem_cons_self)) _

/-! ### Numerals -/

theorem digits?_eq {digits rest : Text} (h : IsDigits digits)
    (hrest : StartsWithout isAsciiDigit rest) : digits? (digits ++ rest) = some (digits, rest) := by
  have hspan : (digits ++ rest).span isAsciiDigit = (digits, rest) := by
    rw [List.span_eq_takeWhile_dropWhile, List.takeWhile_append_of_pos h.2,
      List.dropWhile_append_of_pos h.2]
    cases rest with
    | nil => simp
    | cons c rest => simp [hrest c rest rfl]
  unfold digits?
  rw [hspan]
  cases digits with
  | nil => exact absurd rfl h.1
  | cons => rfl

theorem whole?_eq {whole rest : Text} (h : IsWhole whole)
    (hrest : StartsWithout isAsciiDigit rest) : whole? (whole ++ rest) = some (whole, rest) := by
  unfold whole?
  rw [digits?_eq h.1 hrest]
  split
  next hzero =>
    obtain ⟨hwhole, -⟩ := Prod.mk.inj (Option.some.inj hzero)
    exact absurd (h.2 _ hwhole) (by simp)
  · rfl

theorem fraction?_eq {fraction rest : Text} (h : IsFraction fraction)
    (hdigits : StartsWithout isAsciiDigit rest) (hpoint : StartsWithout (· == '.') rest) :
    fraction? (fraction ++ rest) = some (fraction, rest) := by
  cases h with
  | none =>
    rw [List.nil_append]
    unfold fraction?
    split
    next cs => exact absurd (hpoint '.' cs rfl) (by decide)
    · rfl
  | some h => simp [fraction?, digits?_eq h hdigits]

theorem exponentSign_digits {digits rest : Text} (h : IsDigits digits) :
    exponentSign (digits ++ rest) = ('+', digits ++ rest) := by
  cases digits with
  | nil => exact absurd rfl h.1
  | cons c digits =>
    have hc := h.2 c List.mem_cons_self
    unfold exponentSign
    split
    next heq => exact absurd ((List.cons.inj heq).1 ▸ hc) (by decide)
    next heq => exact absurd ((List.cons.inj heq).1 ▸ hc) (by decide)
    · rfl

theorem exponent?_eq {written kept rest : Text} (h : SpellsExponent written kept)
    (hrest : Ends rest) : exponent? (written ++ rest) = some (kept, rest) := by
  cases h with
  | none =>
    cases rest with
    | nil => rfl
    | cons c rest =>
      have := hrest c rest rfl
      simp only [isNumeralChar, Bool.or_eq_false_iff, beq_eq_false_iff_ne] at this
      simp [exponent?, this]
  | bare he hdigits =>
    simp only [List.cons_append, exponent?, exponentSign_digits hdigits,
      digits?_eq hdigits hrest.digits]
    rcases he with rfl | rfl <;> rfl
  | signed he hsign hdigits =>
    rcases hsign with rfl | rfl <;> rcases he with rfl | rfl <;>
      simp [exponent?, exponentSign, digits?_eq hdigits hrest.digits]

/-- The exponent begins with its letter. -/
theorem startsWithout_exponent {p : Char → Bool} {written kept rest : Text}
    (h : SpellsExponent written kept) (hsmall : p 'e' = false) (hlarge : p 'E' = false)
    (hrest : StartsWithout p rest) : StartsWithout p (written ++ rest) := by
  cases h with
  | none => exact hrest
  | bare he | signed he => rcases he with rfl | rfl <;> exact startsWithout_cons ‹_› _

theorem startsWithout_fraction {p : Char → Bool} {fraction rest : Text}
    (h : IsFraction fraction) (hpoint : p '.' = false) (hrest : StartsWithout p rest) :
    StartsWithout p (fraction ++ rest) := by
  cases h with
  | none => exact hrest
  | some => exact startsWithout_cons hpoint _

theorem minus_eq {sign whole rest : Text} (hsign : sign = [] ∨ sign = ['-']) (h : IsWhole whole) :
    minus (sign ++ (whole ++ rest)) = (sign, whole ++ rest) := by
  rcases hsign with rfl | rfl
  · cases whole with
    | nil => exact absurd rfl h.1.1
    | cons c whole =>
      have hc := h.1.2 c List.mem_cons_self
      unfold minus
      split
      next heq => exact absurd ((List.cons.inj heq).1 ▸ hc) (by decide)
      · rfl
  · rfl

theorem number?_eq {written kept rest : Text} (h : SpellsNumeral written kept)
    (hrest : Ends rest) : number? (written ++ rest) = some (.number kept, rest) := by
  cases h with
  | mk hsign hwhole hfraction hexponent =>
    have hpoint : StartsWithout (· == '.') rest := fun c cs hcs => by
      have := hrest c cs hcs
      simp only [isNumeralChar, Bool.or_eq_false_iff] at this
      exact this.1.1.1.1.2
    have hbehind := startsWithout_exponent hexponent (by decide) (by decide) hrest.digits
    simp only [number?, List.append_assoc, minus_eq hsign hwhole,
      whole?_eq hwhole (startsWithout_fraction hfraction (by decide) hbehind),
      fraction?_eq hfraction hbehind (startsWithout_exponent hexponent (by decide) (by decide) hpoint),
      exponent?_eq hexponent hrest, Option.bind_eq_bind, Option.bind_some, Option.pure_def]

/-! ### Strings -/

/-- One character of a string: what it adds stands before what follows. -/
theorem stringBody?_cons {state : StringState} {c : Char} (h : state = .plain → c ≠ '"')
    (done cs : Text) :
    stringBody? state done (c :: cs) =
      (stringStep? state c).bind fun (added, next) =>
        stringBody? next (added.toList ++ done) cs := by
  conv => lhs; unfold stringBody?
  split
  · exact absurd rfl (h rfl)
  · cases hstep : stringStep? state c with
    | none => rfl
    | some step =>
      obtain ⟨added, next⟩ := step
      cases added <;> rfl

/-- Four digits of a code unit. -/
theorem stringBody?_unit {a b c d : Char} {n : Nat} (h : codeUnit? a b c d = some n)
    (high : Option Nat) (done cs : Text) :
    stringBody? (.unit high 0 4) done (a :: b :: c :: d :: cs) =
      (afterUnit? high n).bind fun (added, next) =>
        stringBody? next (added.toList ++ done) cs := by
  simp only [codeUnit?, Option.bind_eq_bind, Option.bind_eq_some_iff, Option.pure_def,
    Option.some.injEq] at h
  obtain ⟨a', ha, b', hb, c', hc, d', hd, rfl⟩ := h
  simp [stringBody?_cons, stringStep?, ha, hb, hc, hd]

theorem stringBody?_eq {cs s : Text} (h : SpellsString cs s) (done rest : Text) :
    stringBody? .plain done (cs ++ '"' :: rest) = some (done.reverse ++ s, rest) := by
  induction h generalizing done with
  | nil => simp [stringBody?]
  | plain hquote hslash hcontrol _ ih =>
    rw [List.cons_append, stringBody?_cons fun _ => hquote]
    simp [stringStep?, hslash, Nat.not_lt.mpr hcontrol, ih]
  | @letter e c cs s hletter _ ih =>
    have he : e ≠ 'u' := by
      rintro rfl
      cases hletter
    simp [stringBody?_cons, stringStep?, he, hletter, ih]
  | unit hunit hhigh hlow _ ih =>
    simp [stringBody?_cons, stringStep?, stringBody?_unit hunit, afterUnit?, hhigh, hlow, ih]
  | halves hfirst hhigh hsecond hlow _ ih =>
    simp [stringBody?_cons, stringStep?, stringBody?_unit hfirst, stringBody?_unit hsecond,
      afterUnit?, hhigh, hlow, ih]

/-! ### Values -/

/-- A reader takes a text off the front, and maybe white space behind it. -/
def Reads (element : Text → Option (Value × Text)) (cs : Text) (v : Value) : Prop :=
  ∀ rest, Ends rest →
    ∃ rest', element (skipSpace (cs ++ rest)) = some (v, rest') ∧ skipSpace rest' = skipSpace rest

section Containers

variable {element : Text → Option (Value × Text)}

theorem ends_close {c : Char} (h : isNumeralChar c = false) (rest : Text) : Ends (c :: rest) :=
  startsWithout_cons h rest

theorem items?_eq {items : List (Text × Value)} (hne : items ≠ [])
    (h : ∀ item ∈ items, Reads element item.1 item.2) {fuel : Nat} (hfuel : items.length ≤ fuel)
    (done : List Value) (rest : Text) :
    items? element fuel done (commaSeparated (items.map Prod.fst) ++ ']' :: rest) =
      some (.array (done.reverse ++ items.map Prod.snd), rest) := by
  induction items generalizing fuel done with
  | nil => exact absurd rfl hne
  | cons item items ih =>
    obtain ⟨fuel, rfl⟩ := Nat.exists_eq_add_one.mpr (Nat.zero_lt_of_lt hfuel)
    have hitem := h item List.mem_cons_self
    cases items with
    | nil =>
      obtain ⟨rest', hread, hrest'⟩ := hitem (']' :: rest) (ends_close (c := ']') rfl rest)
      rw [skipSpace_cons rfl] at hrest'
      simp [items?, commaSeparated, hread, hrest']
    | cons second items =>
      have htext : commaSeparated ((item :: second :: items).map Prod.fst) ++ ']' :: rest =
          item.1 ++ ',' :: (commaSeparated ((second :: items).map Prod.fst) ++ ']' :: rest) := by
        simp [commaSeparated]
      obtain ⟨rest', hread, hrest'⟩ := hitem _ (ends_close (c := ',') rfl _)
      rw [skipSpace_cons rfl] at hrest'
      rw [htext, items?, hread]
      simp only [hrest']
      rw [ih (by simp) (fun i hi => h i (List.mem_cons_of_mem _ hi)) (Nat.le_of_succ_le_succ hfuel)]
      simp

/-- A member's text is taken off the front, and maybe white space behind it. -/
def ReadsMember (element : Text → Option (Value × Text)) (m : Member) : Prop :=
  ∀ rest, Ends rest → ∃ rest', member? element (m.text ++ rest) = some (m.key, m.value, rest') ∧
    skipSpace rest' = skipSpace rest

theorem member?_reads {m : Member} (hspace : IsSpaces m.before ∧ IsSpaces m.after)
    (hkey : SpellsString m.spelling m.key) (hvalue : Reads element m.written m.value) :
    ReadsMember element m := by
  intro rest hrest
  obtain ⟨rest', hread, hrest'⟩ := hvalue rest hrest
  refine ⟨rest', ?_, hrest'⟩
  have htext : m.text ++ rest =
      m.before ++ '"' :: (m.spelling ++ '"' :: (m.after ++ ':' :: (m.written ++ rest))) := by
    simp [Member.text]
  unfold member?
  rw [htext, skipSpace_append hspace.1, skipSpace_cons rfl]
  simp only [stringBody?_eq hkey, skipSpace_append hspace.2,
    skipSpace_cons (show isSpace ':' = false from rfl), hread]
  rfl

/-- No member begins with a closing brace. -/
theorem member?_close {space : Text} (hspace : IsSpaces space) (rest : Text) :
    member? element (space ++ '}' :: rest) = none := by
  rw [member?, skipSpace_append hspace, skipSpace_cons rfl]
  rfl

/-- What stands behind a member: a comma and more members, or the closing brace. -/
def behind (members : List Member) (rest : Text) : Text :=
  (members.map Member.text).flatMap (',' :: ·) ++ '}' :: rest

theorem members_text (m : Member) (members : List Member) (rest : Text) :
    commaSeparated ((m :: members).map Member.text) ++ '}' :: rest =
      m.text ++ behind members rest := by
  rw [List.map_cons, commaSeparated_cons, List.append_assoc, behind]

theorem behind_cons (m : Member) (members : List Member) (rest : Text) :
    behind (m :: members) rest = ',' :: (m.text ++ behind members rest) := by
  simp [behind]

theorem ends_behind (members : List Member) (rest : Text) : Ends (behind members rest) := by
  cases members with
  | nil => exact ends_close (c := '}') rfl rest
  | cons m members => exact behind_cons m members rest ▸ ends_close (c := ',') rfl _

theorem skipSpace_behind (members : List Member) (rest : Text) :
    skipSpace (behind members rest) = behind members rest := by
  cases members with
  | nil => exact skipSpace_cons (c := '}') rfl rest
  | cons m members => rw [behind_cons, skipSpace_cons rfl]

theorem members?_eq {m : Member} {members : List Member}
    (h : ∀ x ∈ m :: members, ReadsMember element x) {fuel : Nat} (hfuel : members.length < fuel)
    (done : Object) (rest : Text) :
    members? element fuel done (m.text ++ behind members rest) =
      some (.object ((m :: members).foldl Member.addTo done), rest) := by
  induction members generalizing m fuel done with
  | nil =>
    obtain ⟨fuel, rfl⟩ := Nat.exists_eq_add_one.mpr (Nat.zero_lt_of_lt hfuel)
    obtain ⟨rest', hread, hrest'⟩ := h m List.mem_cons_self _ (ends_behind [] rest)
    rw [skipSpace_behind] at hrest'
    rw [members?, hread]
    simp only [hrest']
    rfl
  | cons second members ih =>
    obtain ⟨fuel, rfl⟩ := Nat.exists_eq_add_one.mpr (Nat.zero_lt_of_lt hfuel)
    obtain ⟨rest', hread, hrest'⟩ := h m List.mem_cons_self _ (ends_behind (second :: members) rest)
    rw [skipSpace_behind, behind_cons] at hrest'
    rw [members?, hread]
    simp only [hrest']
    exact ih (fun x hx => h x (List.mem_cons_of_mem _ hx)) (Nat.lt_of_succ_lt_succ hfuel) _

/-- The first member of a text is the same however the text is cut into members. -/
theorem pair_eq {m m' : Member} (h : ReadsMember element m) (h' : ReadsMember element m')
    {members others : List Member} {rest rest' : Text}
    (heq : m.text ++ behind members rest = m'.text ++ behind others rest') :
    m.pair = m'.pair ∧ behind members rest = behind others rest' := by
  obtain ⟨left, hread, hleft⟩ := h _ (ends_behind members rest)
  obtain ⟨left', hread', hleft'⟩ := h' _ (ends_behind others rest')
  rw [heq, hread', Option.some.injEq, Prod.mk.injEq, Prod.mk.injEq] at hread
  obtain ⟨hkey, hvalue, rfl⟩ := hread
  rw [skipSpace_behind] at hleft hleft'
  exact ⟨Prod.ext hkey.symm hvalue.symm, hleft.symm.trans hleft'⟩

/-- And so are all members up to the closing brace. -/
theorem pairs_eq {m m' : Member} {members others : List Member}
    (h : ∀ x ∈ m :: members, ReadsMember element x) (h' : ∀ x ∈ m' :: others, ReadsMember element x)
    {rest rest' : Text} (heq : m.text ++ behind members rest = m'.text ++ behind others rest') :
    (m :: members).map Member.pair = (m' :: others).map Member.pair := by
  induction members generalizing m m' others with
  | nil =>
    obtain ⟨hpair, hbehind⟩ := pair_eq (h m List.mem_cons_self) (h' m' List.mem_cons_self) heq
    cases others with
    | nil => simp [hpair]
    | cons second others =>
      rw [behind_cons] at hbehind
      exact absurd (List.cons.inj hbehind).1 (by decide)
  | cons second members ih =>
    obtain ⟨hpair, hbehind⟩ := pair_eq (h m List.mem_cons_self) (h' m' List.mem_cons_self) heq
    rw [behind_cons] at hbehind
    cases others with
    | nil => exact absurd (List.cons.inj hbehind).1 (by decide)
    | cons second' others =>
      rw [behind_cons] at hbehind
      exact congrArg₂ List.cons hpair (ih (fun x hx => h x (List.mem_cons_of_mem _ hx))
        (fun x hx => h' x (List.mem_cons_of_mem _ hx)) (List.cons.inj hbehind).2)

end Containers

theorem word?_eq (word : Text) (v : Value) (rest : Text) :
    word? word v (word ++ rest) = some (v, rest) := by
  simp [word?]

/-- What is no container is read alike at every depth. -/
theorem value?_scalar {c : Char} (harray : c ≠ '[') (hobject : c ≠ '{') (size depth : Nat)
    (cs : Text) : value? size depth (c :: cs) = scalar? (c :: cs) := by
  cases depth <;> simp [value?, harray, hobject]

/-- A numeral begins with a digit or with its sign. -/
theorem value?_numeral {written kept : Text} (h : SpellsNumeral written kept) (size depth : Nat)
    {rest : Text} (hrest : Ends rest) :
    isSpace <$> (written ++ rest).head? = some false ∧
      value? size depth (written ++ rest) = some (.number kept, rest) := by
  have hnumber := number?_eq h hrest
  obtain ⟨c, cs, hcs, hc⟩ : ∃ c cs, written = c :: cs ∧ (isAsciiDigit c || c == '-') = true := by
    cases h with
    | @mk sign whole fraction exponent kept hsign hwhole =>
      obtain ⟨d, digits, rfl⟩ := List.exists_cons_of_ne_nil hwhole.1.1
      rcases hsign with rfl | rfl
      · exact ⟨d, _, rfl, by simp [hwhole.1.2 d List.mem_cons_self]⟩
      · exact ⟨'-', _, rfl, rfl⟩
  have hne (d : Char) (hd : (isAsciiDigit d || d == '-') = false) : c ≠ d := by
    rintro rfl
    rw [hc] at hd
    cases hd
  subst hcs
  rw [List.cons_append] at hnumber ⊢
  refine ⟨?_, ?_⟩
  · simp [isSpace, hne ' ' rfl, hne '\t' rfl, hne '\n' rfl, hne '\r' rfl]
  · rw [value?_scalar (hne '[' rfl) (hne '{' rfl)]
    have hquote := hne '"' rfl
    have ht := hne 't' rfl
    have hf := hne 'f' rfl
    have hn := hne 'n' rfl
    simpa [scalar?, hquote, ht, hf, hn] using hnumber

theorem value?_string {cs s : Text} (h : SpellsString cs s) (size depth : Nat) (rest : Text) :
    value? size depth ('"' :: cs ++ ['"'] ++ rest) = some (.string s, rest) := by
  have htext : '"' :: cs ++ ['"'] ++ rest = '"' :: (cs ++ '"' :: rest) := by simp
  rw [htext, value?_scalar (by decide) (by decide)]
  simp [scalar?, stringBody?_eq h]

/-- No value begins with a closing bracket. -/
theorem value?_close (size depth : Nat) (cs : Text) : value? size depth (']' :: cs) = none := by
  rw [value?_scalar (by decide) (by decide)]
  rfl

theorem value?_array {items : List (Text × Value)} (hne : items ≠ []) {size depth : Nat}
    (h : ∀ item ∈ items, Reads (value? size depth) item.1 item.2) (hsize : items.length ≤ size)
    (rest : Text) :
    value? size (depth + 1) ('[' :: commaSeparated (items.map Prod.fst) ++ [']'] ++ rest) =
      some (.array (items.map Prod.snd), rest) := by
  have htext : '[' :: commaSeparated (items.map Prod.fst) ++ [']'] ++ rest =
      '[' :: (commaSeparated (items.map Prod.fst) ++ ']' :: rest) := by simp
  have hitems := items?_eq hne h hsize [] rest
  rw [htext]
  simp only [value?]
  split
  next cs hclose =>
    -- the first item would begin with the bracket
    obtain ⟨size, rfl⟩ := Nat.exists_eq_add_one.mpr
      (Nat.lt_of_lt_of_le (List.length_pos_iff.mpr hne) hsize)
    rw [items?, hclose, value?_close] at hitems
    cases hitems
  · exact hitems

theorem value?_emptyObject {space : Text} (hspace : IsSpaces space) (size depth : Nat)
    (rest : Text) :
    value? size (depth + 1) ('{' :: space ++ ['}'] ++ rest) = some (.object [], rest) := by
  have htext : '{' :: space ++ ['}'] ++ rest = '{' :: (space ++ '}' :: rest) := by simp
  rw [htext]
  simp only [value?]
  rw [skipSpace_append hspace, skipSpace_cons rfl]
  rfl

theorem value?_object {members : List Member} (hne : members ≠ [])
    (hspace : ∀ m ∈ members, IsSpaces m.before ∧ IsSpaces m.after)
    (hkeys : ∀ m ∈ members, SpellsString m.spelling m.key) {size depth : Nat}
    (hvalues : ∀ m ∈ members, Reads (value? size depth) m.written m.value)
    (hsize : members.length ≤ size) (rest : Text) :
    value? size (depth + 1) ('{' :: commaSeparated (members.map Member.text) ++ ['}'] ++ rest) =
      some (.object (members.foldl Member.addTo []), rest) := by
  obtain ⟨m, ms, rfl⟩ := List.exists_cons_of_ne_nil hne
  have htext : '{' :: commaSeparated ((m :: ms).map Member.text) ++ ['}'] ++ rest =
      '{' :: (m.text ++ behind ms rest) := by
    rw [← members_text]
    simp
  have hmembers := members?_eq
    (fun x hx => member?_reads (hspace x hx) (hkeys x hx) (hvalues x hx)) hsize [] rest
  rw [htext]
  simp only [value?]
  split
  next cs hclose =>
    -- the first key would begin with the brace
    obtain ⟨size, rfl⟩ := Nat.exists_eq_add_one.mpr (Nat.lt_of_lt_of_le (Nat.succ_pos _) hsize)
    rw [members?, member?, hclose] at hmembers
    cases hmembers
  · exact hmembers

theorem Reads.of_eq {element : Text → Option (Value × Text)} {cs : Text} {v : Value}
    (hspace : ∀ rest, skipSpace (cs ++ rest) = cs ++ rest)
    (h : ∀ rest, Ends rest → element (cs ++ rest) = some (v, rest)) : Reads element cs v :=
  fun rest hrest => ⟨rest, (congrArg element (hspace rest)).trans (h rest hrest), rfl⟩

theorem members_length_le {members : List Member} {size : Nat}
    (h : ('{' :: commaSeparated (members.map Member.text) ++ ['}']).length ≤ size) :
    (∀ m ∈ members, m.written.length ≤ size) ∧ members.length ≤ size := by
  simp only [List.length_append, List.length_cons, List.length_nil] at h
  refine ⟨fun m hm => ?_, ?_⟩
  · have := length_le_commaSeparated (List.mem_map_of_mem (f := Member.text) hm)
    simp only [Member.text, List.length_append, List.length_cons] at this
    omega
  · have := length_pieces_le (members.map Member.text)
    rw [List.length_map] at this
    omega

/-- What spells a value is read as that value. -/
theorem value?_reads {depth size : Nat} {cs : Text} {v : Value} (h : Spells depth cs v)
    (hsize : cs.length ≤ size) : Reads (value? size depth) cs v := by
  induction h with
  | null =>
    refine .of_eq (fun _ => rfl) fun rest _ => ?_
    exact (value?_scalar (by decide) (by decide) _ _ _).trans (word?_eq "null".toList _ rest)
  | true =>
    refine .of_eq (fun _ => rfl) fun rest _ => ?_
    exact (value?_scalar (by decide) (by decide) _ _ _).trans (word?_eq "true".toList _ rest)
  | false =>
    refine .of_eq (fun _ => rfl) fun rest _ => ?_
    exact (value?_scalar (by decide) (by decide) _ _ _).trans (word?_eq "false".toList _ rest)
  | @number d written kept h =>
    intro rest hrest
    obtain ⟨hhead, hread⟩ := value?_numeral h size d hrest
    refine ⟨rest, ?_, rfl⟩
    cases htext : written ++ rest with
    | nil => simp [htext] at hhead
    | cons c cs =>
      rw [htext] at hhead hread
      rw [skipSpace_cons (by simpa using hhead), hread]
  | string h => exact .of_eq (fun _ => rfl) fun rest _ => value?_string h _ _ rest
  | @emptyArray d space hspace =>
    refine .of_eq (fun _ => rfl) fun rest _ => ?_
    have htext : '[' :: space ++ [']'] ++ rest = '[' :: (space ++ ']' :: rest) := by simp
    rw [htext]
    simp only [value?]
    rw [skipSpace_append hspace, skipSpace_cons rfl]
    rfl
  | @array _ items hne _ ih =>
    refine .of_eq (fun _ => rfl) fun rest _ => ?_
    simp only [List.length_append, List.length_cons, List.length_nil] at hsize
    refine value?_array hne (fun item hitem => ih item hitem ?_) ?_ rest
    · have := length_le_commaSeparated (List.mem_map_of_mem (f := Prod.fst) hitem)
      omega
    · have := length_pieces_le (items.map Prod.fst)
      rw [List.length_map] at this
      omega
  | emptyObject hspace => exact .of_eq (fun _ => rfl) fun rest _ => value?_emptyObject hspace _ _ rest
  | @object _ members hne hspace hkeys _ ih =>
    refine .of_eq (fun _ => rfl) fun rest _ => ?_
    obtain ⟨hmembers, hcount⟩ := members_length_le hsize
    exact value?_object hne hspace hkeys (fun m hm => ih m hm (hmembers m hm)) hcount rest
  | @spaced d before cs after v hbefore _ hafter ih =>
    intro rest hrest
    simp only [List.length_append] at hsize
    obtain ⟨rest', hread, hrest'⟩ := ih (by omega) (after ++ rest) (hrest.spaced hafter)
    refine ⟨rest', ?_, hrest'.trans (skipSpace_append hafter rest)⟩
    rw [List.append_assoc, List.append_assoc, skipSpace_append hbefore]
    exact hread

/-- An object's text is taken off whatever it is followed by. -/
theorem value?_reads_object {depth size : Nat} {cs : Text} {o : Object}
    (h : Spells depth cs (.object o)) (hsize : cs.length ≤ size) (rest : Text) :
    ∃ rest', value? size depth (skipSpace (cs ++ rest)) = some (.object o, rest') ∧
      skipSpace rest' = skipSpace rest := by
  generalize hv : Value.object o = v at h
  induction h generalizing rest with
  | null | true | false | number | string | emptyArray | array => cases hv
  | emptyObject hspace => exact ⟨rest, value?_emptyObject hspace _ _ rest, rfl⟩
  | object hne hspace hkeys hvalues =>
    obtain ⟨hmembers, hcount⟩ := members_length_le hsize
    exact ⟨rest, value?_object hne hspace hkeys
      (fun m hm => value?_reads (hvalues m hm) (hmembers m hm)) hcount rest, rfl⟩
  | @spaced _ before cs after _ hbefore _ hafter ih =>
    simp only [List.length_append] at hsize
    obtain ⟨rest', hread, hrest'⟩ := ih (by omega) (after ++ rest) hv
    refine ⟨rest', ?_, hrest'.trans (skipSpace_append hafter rest)⟩
    rw [List.append_assoc, List.append_assoc, skipSpace_append hbefore]
    exact hread

end Decoder

/-- A text that spells a value is decoded to it. -/
theorem Spells.decodeWithin? {depth : Nat} {cs : Text} {v : Value} (h : Spells depth cs v) :
    decodeWithin? depth cs = some v := by
  obtain ⟨rest, hread, hrest⟩ := Decoder.value?_reads h (Nat.le_refl _) [] nofun
  rw [List.append_nil] at hread
  rw [Json.decodeWithin?, hread]
  simp only [hrest]
  rfl

theorem Spells.decodeUnbounded? {depth : Nat} {cs : Text} {v : Value} (h : Spells depth cs v) :
    decodeUnbounded? cs = some v :=
  h.within_length.decodeWithin?

/-- Up to white space, an object's text is a brace and what the members are read from. -/
theorem SpellsMembers.reads {d depth : Nat} {cs : Text} {members : List (Text × Value)}
    (h : SpellsMembers d cs members) (hdepth : d ≤ depth) :
    (members = [] ∧ ∃ space rest, IsSpaces space ∧
        Decoder.skipSpace cs = '{' :: (space ++ '}' :: rest)) ∨
      ∃ m ms rest, members = (m :: ms).map Member.pair ∧
        (∀ x ∈ m :: ms, Decoder.ReadsMember (Decoder.value? cs.length depth) x) ∧
        Decoder.skipSpace cs = '{' :: (m.text ++ Decoder.behind ms rest) := by
  cases h with
  | @empty before space after hbefore hspace hafter =>
    refine .inl ⟨rfl, space, after, hspace, ?_⟩
    rw [List.append_assoc, Decoder.skipSpace_append hbefore, List.append_assoc, List.cons_append,
      Decoder.skipSpace_cons rfl]
    rfl
  | @members before after members hne hbefore hmembers hafter =>
    obtain ⟨m, ms, rfl⟩ := List.exists_cons_of_ne_nil hne
    refine .inr ⟨m, ms, after, rfl, fun x hx => ?_, ?_⟩
    · have hsize := (Decoder.members_length_le (Nat.le_refl _)).1 x hx
      obtain ⟨hspace, hkey, hvalue⟩ := hmembers x hx
      refine Decoder.member?_reads hspace hkey
        (Decoder.value?_reads (hvalue.mono hdepth) (Nat.le_trans hsize ?_))
      simp only [List.length_append]
      omega
    · rw [List.append_assoc, Decoder.skipSpace_append hbefore, List.append_assoc, List.cons_append,
        Decoder.skipSpace_cons rfl, List.singleton_append, Decoder.members_text]

/-- The members that an object is written with can be told from its text. -/
theorem SpellsMembers.unique {d d' : Nat} {cs : Text} {members others : List (Text × Value)}
    (h : SpellsMembers d cs members) (h' : SpellsMembers d' cs others) : members = others := by
  have hclose {m : Member} {ms : List Member} {space rest rest' : Text} (hspace : IsSpaces space)
      (hread : ∀ x ∈ m :: ms, Decoder.ReadsMember (Decoder.value? cs.length (max d d')) x) :
      space ++ '}' :: rest ≠ m.text ++ Decoder.behind ms rest' := by
    intro heq
    obtain ⟨left, hmember, -⟩ := hread m List.mem_cons_self _ (Decoder.ends_behind ms rest')
    rw [← heq, Decoder.member?_close hspace] at hmember
    cases hmember
  rcases h.reads (Nat.le_max_left d d') with
    ⟨rfl, space, rest, hspace, htext⟩ | ⟨m, ms, rest, rfl, hread, htext⟩ <;>
  rcases h'.reads (Nat.le_max_right d d') with
    ⟨rfl, space', rest', hspace', htext'⟩ | ⟨m', ms', rest', rfl, hread', htext'⟩
  · rfl
  · exact absurd (List.cons.inj (htext.symm.trans htext')).2 (hclose hspace hread')
  · exact absurd (List.cons.inj (htext'.symm.trans htext)).2 (hclose hspace' hread)
  · exact Decoder.pairs_eq hread hread' (List.cons.inj (htext.symm.trans htext')).2

/-- A kept value is read back from what is printed for it. -/
theorem Value.Kept.decodeUnbounded? {depth : Nat} {v : Value} (h : v.Kept depth) :
    Json.decodeUnbounded? v.render = some v :=
  h.spells.decodeUnbounded?

end NodeLogs.Json
