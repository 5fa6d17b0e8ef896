import NodeLogs.Json.Decoder
import NodeLogs.Json.Printer

/-! The grammar of JSON, as a relation between texts and what they spell. White
space may stand around every value and every key. A numeral may write its
exponent in several ways, of which one is kept; of members with one key the last
value counts, at the place of the first. A depth bounds how many containers may
stand inside one another. What members an object is written with, be it with one
key several times, is a relation of its own. -/

namespace NodeLogs.Json

/-! ### Numerals -/

/-- At least one digit. -/
def IsDigits (cs : Text) : Prop :=
  cs ≠ [] ∧ ∀ c ∈ cs, isAsciiDigit c = true

/-- Digits without a zero before others. -/
def IsWhole (cs : Text) : Prop :=
  IsDigits cs ∧ ∀ rest, cs = '0' :: rest → rest = []

inductive IsFraction : Text → Prop
  | none : IsFraction []
  | some {digits : Text} (hdigits : IsDigits digits) : IsFraction ('.' :: digits)

/-- An exponent as it is written, and as it is kept: with a small letter and a sign. -/
inductive SpellsExponent : Text → Text → Prop
  | none : SpellsExponent [] []
  | bare {e : Char} {digits : Text} (he : e = 'e' ∨ e = 'E') (hdigits : IsDigits digits) :
      SpellsExponent (e :: digits) ('e' :: '+' :: digits)
  | signed {e sign : Char} {digits : Text} (he : e = 'e' ∨ e = 'E')
      (hsign : sign = '+' ∨ sign = '-') (hdigits : IsDigits digits) :
      SpellsExponent (e :: sign :: digits) ('e' :: sign :: digits)

/-- A numeral as it is written, and as it is kept. -/
inductive SpellsNumeral : Text → Text → Prop
  | mk {sign whole fraction exponent kept : Text} (hsign : sign = [] ∨ sign = ['-'])
      (hwhole : IsWhole whole) (hfraction : IsFraction fraction)
      (hexponent : SpellsExponent exponent kept) :
      SpellsNumeral (sign ++ whole ++ fraction ++ exponent) (sign ++ whole ++ fraction ++ kept)

/-- A numeral in the spelling that is kept. -/
def IsNumeral (cs : Text) : Prop :=
  SpellsNumeral cs cs

/-- The characters of numerals. -/
def isNumeralChar (c : Char) : Bool :=
  isAsciiDigit c || c == '.' || c == 'e' || c == 'E' || c == '+' || c == '-'

theorem IsDigits.isNumeralChar {cs : Text} (h : IsDigits cs) {c : Char} (hc : c ∈ cs) :
    isNumeralChar c = true := by
  simp [Json.isNumeralChar, h.2 c hc]

theorem SpellsExponent.isNumeralChar {written kept : Text} (h : SpellsExponent written kept)
    {c : Char} (hc : c ∈ kept) : isNumeralChar c = true := by
  cases h with
  | none => cases hc
  | bare _ hdigits =>
    rcases List.mem_cons.mp hc with rfl | hc
    · rfl
    rcases List.mem_cons.mp hc with rfl | hc
    · rfl
    exact hdigits.isNumeralChar hc
  | signed _ hsign hdigits =>
    rcases List.mem_cons.mp hc with rfl | hc
    · rfl
    rcases List.mem_cons.mp hc with rfl | hc
    · rcases hsign with rfl | rfl <;> rfl
    exact hdigits.isNumeralChar hc

theorem IsNumeral.isNumeralChar {cs : Text} (h : IsNumeral cs) {c : Char} (hc : c ∈ cs) :
    isNumeralChar c = true := by
  obtain ⟨written, hcs, h⟩ : ∃ written, written = cs ∧ SpellsNumeral written cs := ⟨cs, rfl, h⟩
  cases h with
  | mk hsign hwhole hfraction hexponent =>
    simp only [List.mem_append] at hc
    rcases hc with ((hc | hc) | hc) | hc
    · rcases hsign with rfl | rfl
      · cases hc
      · rw [List.mem_singleton.mp hc]
        rfl
    · exact hwhole.1.isNumeralChar hc
    · cases hfraction with
      | none => cases hc
      | some hdigits =>
        rcases List.mem_cons.mp hc with rfl | hc
        · rfl
        · exact hdigits.isNumeralChar hc
    · exact hexponent.isNumeralChar hc

/-! ### Strings -/

/-- The code unit that four hexadecimal digits write. -/
def codeUnit? (a b c d : Char) : Option Nat := do
  return 0x10 * (0x10 * (0x10 * (← Decoder.hexValue? a) + (← Decoder.hexValue? b)) +
    (← Decoder.hexValue? c)) + (← Decoder.hexValue? d)

/-- What stands between the quotes of a string, and the string it spells. -/
inductive SpellsString : Text → Text → Prop
  | nil : SpellsString [] []
  | plain {c : Char} {cs s : Text} (hquote : c ≠ '"') (hslash : c ≠ '\\')
      (hcontrol : 0x20 ≤ c.toNat) (rest : SpellsString cs s) : SpellsString (c :: cs) (c :: s)
  | letter {e c : Char} {cs s : Text} (hletter : Decoder.unescape? e = some c)
      (rest : SpellsString cs s) : SpellsString ('\\' :: e :: cs) (c :: s)
  | unit {a b c d : Char} {n : Nat} {cs s : Text} (hunit : codeUnit? a b c d = some n)
      (hhigh : Decoder.isHighHalf n = false) (hlow : Decoder.isLowHalf n = false)
      (rest : SpellsString cs s) :
      SpellsString ('\\' :: 'u' :: a :: b :: c :: d :: cs) (Char.ofNat n :: s)
  | halves {a b c d a' b' c' d' : Char} {m n : Nat} {cs s : Text}
      (hfirst : codeUnit? a b c d = some m) (hhigh : Decoder.isHighHalf m = true)
      (hsecond : codeUnit? a' b' c' d' = some n) (hlow : Decoder.isLowHalf n = true)
      (rest : SpellsString cs s) :
      SpellsString
        ('\\' :: 'u' :: a :: b :: c :: d :: '\\' :: 'u' :: a' :: b' :: c' :: d' :: cs)
        (Decoder.joinHalves m n :: s)

/-! ### Values -/

def IsSpaces (cs : Text) : Prop :=
  ∀ c ∈ cs, Decoder.isSpace c = true

/-- A member as it is written: the key between white space, and the text of the value. -/
structure Member where
  before : Text
  spelling : Text
  after : Text
  written : Text
  key : Text
  value : Value

namespace Member

def text (m : Member) : Text :=
  m.before ++ '"' :: m.spelling ++ '"' :: m.after ++ ':' :: m.written

def pair (m : Member) : Text × Value :=
  (m.key, m.value)

/-- An object after one more member. -/
def addTo (o : Object) (m : Member) : Object :=
  o.set m.key m.value

end Member

/-- A text that spells a value, with white space around it or not. -/
inductive Spells : Nat → Text → Value → Prop
  | null {d : Nat} : Spells d "null".toList .null
  | true {d : Nat} : Spells d "true".toList (.bool true)
  | false {d : Nat} : Spells d "false".toList (.bool false)
  | number {d : Nat} {written kept : Text} (h : SpellsNumeral written kept) :
      Spells d written (.number kept)
  | string {d : Nat} {cs s : Text} (h : SpellsString cs s) :
      Spells d ('"' :: cs ++ ['"']) (.string s)
  | emptyArray {d : Nat} {space : Text} (hspace : IsSpaces space) :
      Spells (d + 1) ('[' :: space ++ [']']) (.array [])
  | array {d : Nat} {items : List (Text × Value)} (hne : items ≠ [])
      (hitems : ∀ item ∈ items, Spells d item.1 item.2) :
      Spells (d + 1) ('[' :: commaSeparated (items.map Prod.fst) ++ [']'])
        (.array (items.map Prod.snd))
  | emptyObject {d : Nat} {space : Text} (hspace : IsSpaces space) :
      Spells (d + 1) ('{' :: space ++ ['}']) (.object [])
  | object {d : Nat} {members : List Member} (hne : members ≠ [])
      (hspace : ∀ m ∈ members, IsSpaces m.before ∧ IsSpaces m.after)
      (hkeys : ∀ m ∈ members, SpellsString m.spelling m.key)
      (hvalues : ∀ m ∈ members, Spells d m.written m.value) :
      Spells (d + 1) ('{' :: commaSeparated (members.map Member.text) ++ ['}'])
        (.object (members.foldl Member.addTo []))
  | spaced {d : Nat} {before cs after : Text} {v : Value} (hbefore : IsSpaces before)
      (h : Spells d cs v) (hafter : IsSpaces after) : Spells d (before ++ cs ++ after) v

theorem Spells.mono {d d' : Nat} {cs : Text} {v : Value} (h : Spells d cs v) (hle : d ≤ d') :
    Spells d' cs v := by
  induction h generalizing d' with
  | null => exact .null
  | true => exact .true
  | false => exact .false
  | number h => exact .number h
  | string h => exact .string h
  | emptyArray hspace =>
    obtain ⟨d', rfl⟩ := Nat.exists_eq_add_one.mpr (Nat.zero_lt_of_lt hle)
    exact .emptyArray hspace
  | array hne _ ih =>
    obtain ⟨d', rfl⟩ := Nat.exists_eq_add_one.mpr (Nat.zero_lt_of_lt hle)
    exact .array hne fun item hitem => ih item hitem (Nat.le_of_succ_le_succ hle)
  | emptyObject hspace =>
    obtain ⟨d', rfl⟩ := Nat.exists_eq_add_one.mpr (Nat.zero_lt_of_lt hle)
    exact .emptyObject hspace
  | object hne hspace hkeys _ ih =>
    obtain ⟨d', rfl⟩ := Nat.exists_eq_add_one.mpr (Nat.zero_lt_of_lt hle)
    exact .object hne hspace hkeys fun m hm => ih m hm (Nat.le_of_succ_le_succ hle)
  | spaced hbefore _ hafter ih => exact .spaced hbefore (ih hle) hafter

theorem commaSeparated_cons (piece : Text) (pieces : List Text) :
    commaSeparated (piece :: pieces) = piece ++ pieces.flatMap (',' :: ·) := rfl

theorem mem_commaSeparated {c : Char} {pieces : List Text} (h : c ∈ commaSeparated pieces) :
    c = ',' ∨ ∃ piece ∈ pieces, c ∈ piece := by
  cases pieces with
  | nil => cases h
  | cons first pieces =>
    rw [commaSeparated_cons, List.mem_append, List.mem_flatMap] at h
    rcases h with h | ⟨piece, hpiece, h⟩
    · exact .inr ⟨first, List.mem_cons_self, h⟩
    · rcases List.mem_cons.mp h with rfl | h
      · exact .inl rfl
      · exact .inr ⟨piece, List.mem_cons_of_mem _ hpiece, h⟩

theorem length_le_commaSeparated {piece : Text} {pieces : List Text} (h : piece ∈ pieces) :
    piece.length ≤ (commaSeparated pieces).length := by
  cases pieces with
  | nil => cases h
  | cons first rest =>
    simp only [commaSeparated, List.length_append]
    rcases List.mem_cons.mp h with rfl | h
    · omega
    · obtain ⟨before, after, rfl⟩ := List.append_of_mem h
      simp
      omega

/-- There are no more pieces than characters but one. -/
theorem length_pieces_le (pieces : List Text) :
    pieces.length ≤ (commaSeparated pieces).length + 1 := by
  cases pieces with
  | nil => simp
  | cons first pieces =>
    have hrest : pieces.length ≤ (pieces.flatMap (',' :: ·)).length := by
      induction pieces with
      | nil => simp
      | cons second pieces ih =>
        simp only [List.flatMap_cons, List.length_append, List.length_cons]
        omega
    simp only [commaSeparated_cons, List.length_append, List.length_cons]
    omega

/-- Containers cannot stand deeper inside one another than there are characters. -/
theorem Spells.within_length {d : Nat} {cs : Text} {v : Value} (h : Spells d cs v) :
    Spells cs.length cs v := by
  induction h with
  | null => exact .null
  | true => exact .true
  | false => exact .false
  | number h => exact .number h
  | string h => exact .string h
  | emptyArray hspace => exact .mono (.emptyArray (d := 0) hspace) (by simp)
  | @array _ items hne _ ih =>
    refine .mono (.array (d := (commaSeparated (items.map Prod.fst)).length) hne
      fun item hitem => ?_) (by simp)
    exact (ih item hitem).mono (length_le_commaSeparated (List.mem_map_of_mem hitem))
  | emptyObject hspace => exact .mono (.emptyObject (d := 0) hspace) (by simp)
  | @object _ members hne hspace hkeys _ ih =>
    refine .mono (.object (d := (commaSeparated (members.map Member.text)).length) hne hspace
      hkeys fun m hm => ?_) (by simp)
    have hle := length_le_commaSeparated (List.mem_map_of_mem (f := Member.text) hm)
    simp only [Member.text, List.length_append, List.length_cons] at hle
    exact (ih m hm).mono (by omega)
  | spaced hbefore _ hafter ih =>
    refine .spaced hbefore (ih.mono ?_) hafter
    simp only [List.length_append]
    omega

/-! ### Objects, member by member -/

/-- What a member of an object is made of. -/
structure SpellsMember (d : Nat) (m : Member) : Prop where
  spaces : IsSpaces m.before ∧ IsSpaces m.after
  key : SpellsString m.spelling m.key
  value : Spells d m.written m.value

/-- A text that is an object, with white space around it or not, and the members that it is written
with, in their order: a key that is written twice is there twice. -/
inductive SpellsMembers (d : Nat) : Text → List (Text × Value) → Prop
  | empty {before space after : Text} (hbefore : IsSpaces before) (hspace : IsSpaces space)
      (hafter : IsSpaces after) : SpellsMembers d (before ++ ('{' :: space ++ ['}']) ++ after) []
  | members {before after : Text} {members : List Member} (hne : members ≠ [])
      (hbefore : IsSpaces before) (hmembers : ∀ m ∈ members, SpellsMember d m)
      (hafter : IsSpaces after) :
      SpellsMembers d
        (before ++ ('{' :: commaSeparated (members.map Member.text) ++ ['}']) ++ after)
        (members.map Member.pair)

/-- White space behind a member belongs to its value. -/
theorem SpellsMember.spaced {d : Nat} {m : Member} (h : SpellsMember d m) {space : Text}
    (hspace : IsSpaces space) : SpellsMember d { m with written := m.written ++ space } where
  spaces := h.spaces
  key := h.key
  value := by
    have hspaced := @Spells.spaced d [] _ _ _ nofun h.value hspace
    rwa [List.nil_append] at hspaced

/-- The object that members make up: of those with one key the last value counts, at the place of
the first. -/
def Object.ofMembers (members : List (Text × Value)) : Object :=
  members.foldl (fun o m => o.set m.1 m.2) []

theorem Object.ofMembers_pairs (members : List Member) :
    Object.ofMembers (members.map Member.pair) = members.foldl Member.addTo [] :=
  List.foldl_map

/-- Members with keys of their own are added as they are. -/
theorem Object.foldl_set {done members : Object} (h : ((done ++ members).map Prod.fst).Nodup) :
    members.foldl (fun o m => o.set m.1 m.2) done = done ++ members := by
  induction members generalizing done with
  | nil => simp
  | cons m members ih =>
    have hadd : done.set m.1 m.2 = done ++ [m] := by
      have hnew : m.1 ∉ done.map Prod.fst := by
        rw [List.map_append, List.nodup_append] at h
        exact fun hmem => h.2.2 m.1 hmem m.1 (by simp) rfl
      exact Keyed.set_of_not_mem hnew m.2
    rw [List.foldl_cons, hadd, ih (by simpa using h)]
    simp

theorem Object.ofMembers_eq {members : Object} (h : (members.map Prod.fst).Nodup) :
    Object.ofMembers members = members :=
  @Object.foldl_set [] members h

theorem SpellsMembers.spaced {d : Nat} {before cs after : Text} {members : List (Text × Value)}
    (hbefore : IsSpaces before) (h : SpellsMembers d cs members) (hafter : IsSpaces after) :
    SpellsMembers d (before ++ cs ++ after) members := by
  have happend {space others : Text} (hspace : IsSpaces space) (hothers : IsSpaces others) :
      IsSpaces (space ++ others) := List.forall_mem_append.mpr ⟨hspace, hothers⟩
  cases h with
  | empty hbefore' hspace hafter' =>
    simpa only [List.append_assoc] using
      @SpellsMembers.empty d _ _ _ (happend hbefore hbefore') hspace (happend hafter' hafter)
  | members hne hbefore' hmembers hafter' =>
    simpa only [List.append_assoc] using
      SpellsMembers.members hne (happend hbefore hbefore') hmembers (happend hafter' hafter)

/-- A text spells an object just if it is written with members that make it up. -/
theorem spells_object_iff {d : Nat} {cs : Text} {o : Object} :
    Spells (d + 1) cs (.object o) ↔
      ∃ members, SpellsMembers d cs members ∧ Object.ofMembers members = o := by
  constructor
  · intro h
    generalize hd : d + 1 = depth, hv : Value.object o = v at h
    induction h with
    | null | true | false | number | string | emptyArray | array => cases hv
    | emptyObject hspace =>
      cases hv
      have hmembers := @SpellsMembers.empty d [] _ [] nofun hspace nofun
      exact ⟨[], by simpa using hmembers, rfl⟩
    | object hne hspace hkeys hvalues =>
      cases hv
      cases hd
      have hmembers := @SpellsMembers.members d [] [] _ hne nofun
        (fun m hm => ⟨hspace m hm, hkeys m hm, hvalues m hm⟩) nofun
      exact ⟨_, by simpa using hmembers, Object.ofMembers_pairs _⟩
    | spaced hbefore _ hafter ih =>
      obtain ⟨members, hmembers, ho⟩ := ih hd hv
      exact ⟨members, hmembers.spaced hbefore hafter, ho⟩
  · rintro ⟨members, hmembers, rfl⟩
    cases hmembers with
    | empty hbefore hspace hafter => exact .spaced hbefore (.emptyObject hspace) hafter
    | members hne hbefore hmembers hafter =>
      rw [Object.ofMembers_pairs]
      exact .spaced hbefore (.object hne (fun m hm => (hmembers m hm).spaces)
        (fun m hm => (hmembers m hm).key) fun m hm => (hmembers m hm).value) hafter

/-! ### Values as they are kept, and their printed texts -/

/-- A value as it is kept: numerals in one spelling, keys once each, and at most so many containers
inside one another. -/
inductive Value.Kept : Nat → Value → Prop
  | null {d : Nat} : Kept d .null
  | bool {d : Nat} (b : Bool) : Kept d (.bool b)
  | number {d : Nat} {numeral : Text} (h : IsNumeral numeral) : Kept d (.number numeral)
  | string {d : Nat} (s : Text) : Kept d (.string s)
  | array {d : Nat} {items : List Value} (hitems : ∀ v ∈ items, Kept d v) :
      Kept (d + 1) (.array items)
  | object {d : Nat} {members : Object} (hkeys : (members.map Prod.fst).Nodup)
      (hvalues : ∀ m ∈ members, Kept d m.2) : Kept (d + 1) (.object members)

theorem Value.Kept.mono {d d' : Nat} {v : Value} (h : v.Kept d) (hle : d ≤ d') : v.Kept d' := by
  induction h generalizing d' with
  | null => exact .null
  | bool b => exact .bool b
  | number h => exact .number h
  | string s => exact .string s
  | array _ ih =>
    obtain ⟨d', rfl⟩ := Nat.exists_eq_add_one.mpr (Nat.zero_lt_of_lt hle)
    exact .array fun v hv => ih v hv (Nat.le_of_succ_le_succ hle)
  | object hkeys _ ih =>
    obtain ⟨d', rfl⟩ := Nat.exists_eq_add_one.mpr (Nat.zero_lt_of_lt hle)
    exact .object hkeys fun m hm => ih m hm (Nat.le_of_succ_le_succ hle)

theorem codeUnit?_control {n : Nat} (h : n < 0x20) :
    codeUnit? '0' '0' (hexDigit (n / 0x10)) (hexDigit (n % 0x10)) = some n := by
  revert n
  decide

/-- The escape of a character spells it. -/
theorem SpellsString.escapeChar (c : Char) {cs s : Text} (rest : SpellsString cs s) :
    SpellsString (Json.escapeChar c ++ cs) (c :: s) := by
  by_cases hcontrol : c.toNat < 0x20
  · -- the two-letter escapes are control characters, all others are written as code units
    have hunit := SpellsString.unit (codeUnit?_control hcontrol)
      (by simp [Decoder.isHighHalf]; omega) (by simp [Decoder.isLowHalf]; omega) rest
    rw [Char.ofNat_toNat] at hunit
    unfold Json.escapeChar
    repeat' split
    all_goals first
      | exact hunit
      | subst_vars; exact .letter rfl rest
  · unfold Json.escapeChar
    repeat' split
    all_goals first
      | exact .plain ‹_› ‹_› (by omega) rest
      | subst_vars; exact .letter rfl rest

theorem length_le_quote (s : Text) : s.length ≤ (quote s).length := by
  have hflat : s.length ≤ (s.flatMap escapeChar).length := by
    induction s with
    | nil => simp
    | cons c s ih =>
      have hc : 0 < (escapeChar c).length := by
        unfold escapeChar
        repeat' split
        all_goals simp
      simp only [List.flatMap_cons, List.length_append, List.length_cons]
      omega
  simp only [quote, List.length_append, List.length_cons]
  omega

theorem SpellsString.quoted (s : Text) : SpellsString (s.flatMap Json.escapeChar) s := by
  induction s with
  | nil => exact .nil
  | cons c s ih => exact .escapeChar c ih

theorem renderItems_eq_map (items : List Value) : renderItems items = items.map Value.render := by
  induction items with
  | nil => rfl
  | cons v items ih => rw [renderItems, ih, List.map_cons]

theorem renderMembers_eq_map (members : Object) :
    renderMembers members = members.map fun m => quote m.1 ++ ':' :: m.2.render := by
  induction members with
  | nil => rfl
  | cons m members ih => rw [renderMembers, ih, List.map_cons]

/-- The member as it is printed. -/
def Member.ofPair (m : Text × Value) : Member where
  before := []
  spelling := m.1.flatMap escapeChar
  after := []
  written := m.2.render
  key := m.1
  value := m.2

theorem Member.text_ofPair (m : Text × Value) :
    (Member.ofPair m).text = quote m.1 ++ ':' :: m.2.render := by
  simp [Member.text, Member.ofPair, quote]

theorem Member.pair_ofPair (m : Text × Value) : (Member.ofPair m).pair = m := rfl

/-- An object is printed with just the members that it has. -/
theorem SpellsMembers.render {d : Nat} {members : Object}
    (h : ∀ m ∈ members, Spells d m.2.render m.2) : SpellsMembers d members.render members := by
  rw [Object.render, Value.render, renderMembers_eq_map]
  cases members with
  | nil => exact @SpellsMembers.empty d [] [] [] nofun nofun nofun
  | cons m members =>
    have hspells := @SpellsMembers.members d [] [] ((m :: members).map Member.ofPair) (by simp)
      nofun (List.forall_mem_map.mpr fun m hm => ⟨⟨nofun, nofun⟩, .quoted m.1, h m hm⟩) nofun
    simpa only [List.map_map, Function.comp_def, Member.text_ofPair, Member.pair_ofPair,
      List.map_id', List.nil_append, List.append_nil] using hspells

/-- A kept value is spelled by what is printed for it. -/
theorem Value.Kept.spells {d : Nat} {v : Value} (h : v.Kept d) : Spells d v.render v := by
  induction h with
  | null => exact .null
  | bool b => cases b <;> constructor
  | number h => exact .number h
  | string s => exact .string (.quoted s)
  | @array _ items _ ih =>
    rw [Value.render, renderItems_eq_map]
    cases items with
    | nil => exact @Spells.emptyArray _ [] nofun
    | cons v items =>
      have hspells := @Spells.array _ ((v :: items).map fun v => (v.render, v)) (by simp)
        (List.forall_mem_map.mpr ih)
      simpa [Function.comp_def] using hspells
  | object hkeys _ ih => exact spells_object_iff.mpr ⟨_, .render ih, Object.ofMembers_eq hkeys⟩

theorem Value.Kept.spellsMembers {d : Nat} {members : Object}
    (h : (Value.object members).Kept (d + 1)) : SpellsMembers d members.render members := by
  cases h with
  | object _ hvalues => exact .render fun m hm => (hvalues m hm).spells

/-- An object's text is at least as long as that of each member. -/
theorem length_le_render {key : Text} {v : Value} {members : List (Text × Value)}
    (h : (key, v) ∈ members) : v.render.length ≤ (Object.render members).length := by
  have hpiece : ∃ piece ∈ renderMembers members, v.render.length ≤ piece.length := by
    induction members with
    | nil => cases h
    | cons m members ih =>
      rcases List.mem_cons.mp h with rfl | h
      · refine ⟨_, List.mem_cons_self, ?_⟩
        simp
        omega
      · obtain ⟨piece, hmem, hle⟩ := ih h
        exact ⟨piece, List.mem_cons_of_mem _ hmem, hle⟩
  obtain ⟨piece, hmem, hle⟩ := hpiece
  have := length_le_commaSeparated hmem
  simp only [Object.render, Value.render, List.length_append, List.length_cons]
  omega

end NodeLogs.Json
