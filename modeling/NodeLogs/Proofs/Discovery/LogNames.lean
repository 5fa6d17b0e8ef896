import Mathlib.Algebra.Group.Nat.Defs
import NodeLogs.Proofs.Line.Rendering
import NodeLogs.Proofs.Text.Folding

/-! The names of logs, apart from their reader. A name is a stream and the ending, written in
any case, with an underscore and a row of digits between them. Such a name is read as its
number, if a word can hold it, and no other name is read. -/

namespace NodeLogs.NodeLog

open Line

/-- What stands around the number in the name of a log, up to case. -/
structure Around (stream tail : Text) : Prop where
  stream : ∃ s ∈ streams, Text.SameLetters stream s
  tail : Text.SameLetters tail ending

theorem fold_of_isAsciiDigit {c : Char} (h : isAsciiDigit c = true) : fold c = c := by
  simp only [isAsciiDigit, Bool.and_eq_true, decide_eq_true_eq, Char.le_def,
    UInt32.le_iff_toNat_le] at h
  have hval : c.val.toNat = c.toNat := rfl
  have hle : c.val.toNat ≤ 0x39 := h.2
  apply Text.fold_of_not <;> omega

/-- In these names, the shorter mapping makes the same letters the same. -/
theorem around_iff {stream tail : Text} :
    Around stream tail ↔ streams.contains (stream.map fold) = true ∧ tail.map fold = ending := by
  have hstreams : ∀ s ∈ streams, s.map fold = s ∧ s.all Text.foldsAlike = true := by decide
  have hending : ending.map fold = ending ∧ ending.all Text.foldsAlike = true := by decide
  have hsame {s : Text} (hs : s.map fold = s ∧ s.all Text.foldsAlike = true) (cs : Text) :
      Text.SameLetters cs s ↔ cs.map fold = s := by
    rw [Text.SameLetters, (Text.map_foldChar_eq_iff hs.2 s).mpr hs.1,
      Text.map_foldChar_eq_iff hs.2 cs]
  have hstream : (∃ s ∈ streams, Text.SameLetters stream s) ↔
      streams.contains (stream.map fold) = true := by
    rw [List.contains_iff_mem]
    constructor
    · rintro ⟨s, hs, hmap⟩
      exact (hsame (hstreams s hs) stream).mp hmap ▸ hs
    · intro hs
      exact ⟨_, hs, (hsame (hstreams _ hs) stream).mpr rfl⟩
  have htail : Text.SameLetters tail ending ↔ tail.map fold = ending := hsame hending tail
  constructor
  · intro h
    exact ⟨hstream.mp h.stream, htail.mp h.tail⟩
  · rintro ⟨hs, ht⟩
    exact ⟨hstream.mpr hs, htail.mpr ht⟩

instance (stream tail : Text) : Decidable (Around stream tail) :=
  decidable_of_iff _ around_iff.symm

theorem Around.length_stream {stream tail : Text} (h : Around stream tail) : stream.length = 6 := by
  have hlength : ∀ s ∈ streams, s.length = 6 := by decide
  have hmem := List.contains_iff_mem.mp (around_iff.mp h).1
  rw [← List.length_map fold]
  exact hlength _ hmem

/-- The digits end at the ending. -/
theorem Around.stops {stream tail : Text} (h : Around stream tail) : Stops isAsciiDigit tail := by
  intro c hc
  have hhead := congrArg List.head? (around_iff.mp h).2
  rw [List.head?_map, Option.mem_def.mp hc] at hhead
  have hdot : fold c = '.' := Option.some.inj hhead
  by_contra hdigit
  rw [Bool.not_eq_false] at hdigit
  rw [fold_of_isAsciiDigit hdigit] at hdot
  subst hdot
  cases hdigit

/-- What stands between a stream and the ending is read as a word. -/
theorem nodeOfText?_around {stream tail : Text} (h : Around stream tail) (digits : Text) :
    nodeOfText? (stream ++ '_' :: (digits ++ tail)) = readWord? digits := by
  obtain ⟨hstream, htail⟩ := around_iff.mp h
  unfold nodeOfText?
  rw [← h.length_stream]
  simp only [List.splitAt_eq, List.take_left, List.drop_left, hstream, Bool.true_and,
    decide_eq_true_eq]
  by_cases hdigits : ∀ c ∈ digits, isAsciiDigit c = true
  · rw [span_append hdigits h.stops]
    exact if_pos htail
  · -- the row of digits ends too soon, and too much is left for the ending
    have hnone : readWord? digits = none :=
      Option.eq_none_iff_forall_not_mem.mpr fun n hn => hdigits (readWord?_eq_some.mp hn).1.all
    have hlong : tail.length < ((digits ++ tail).dropWhile isAsciiDigit).length := by
      have hrest : digits.dropWhile isAsciiDigit ≠ [] := by
        rwa [ne_eq, List.dropWhile_eq_nil_iff]
      rw [List.dropWhile_append, if_neg (by simpa using hrest), List.length_append]
      have := List.length_pos_iff.mpr hrest
      omega
    rw [hnone, List.span_eq_takeWhile_dropWhile]
    apply if_neg
    intro hleft
    have hlength := congrArg List.length (hleft.trans htail.symm)
    rw [List.length_map, List.length_map] at hlength
    exact hlong.ne' hlength

/-- A name that is read is laid out so. -/
theorem exists_around_of_nodeOfText? {name : Text} {n : Nat} (h : nodeOfText? name = some n) :
    ∃ stream digits tail, Around stream tail ∧ name = stream ++ '_' :: (digits ++ tail) := by
  unfold nodeOfText? at h
  rw [List.splitAt_eq] at h
  dsimp only at h
  split at h
  next rest hrest =>
    rw [List.span_eq_takeWhile_dropWhile] at h
    dsimp only at h
    split at h
    next haround =>
      rw [Bool.and_eq_true, decide_eq_true_eq] at haround
      refine ⟨name.take 6, rest.takeWhile isAsciiDigit, rest.dropWhile isAsciiDigit,
        around_iff.mpr haround, ?_⟩
      rw [List.takeWhile_append_dropWhile, ← hrest, List.take_append_drop]
    next => cases h
  next => cases h

theorem digitsValue_zeros (zeros : Nat) (digits : Text) :
    digitsValue (List.replicate zeros '0' ++ digits) = digitsValue digits := by
  induction zeros with
  | zero => rfl
  | succ zeros ih => exact ih

theorem readWord?_eq_none {digits : Text}
    (h : ¬ IsRow isAsciiDigit digits ∨ wordLimit ≤ digitsValue digits) :
    readWord? digits = none := by
  rw [Option.eq_none_iff_forall_ne_some]
  intro n hn
  obtain ⟨hrow, rfl, hlimit⟩ := readWord?_eq_some.mp hn
  cases h with
  | inl h => exact h hrow
  | inr h => omega

theorem readWord?_zeros {n : Nat} (hn : n < wordLimit) (zeros : Nat) :
    readWord? (List.replicate zeros '0' ++ decimal n) = some n := by
  rw [readWord?_eq_some, digitsValue_zeros, digitsValue_decimal]
  refine ⟨⟨?_, ?_⟩, rfl, hn⟩
  · exact List.append_ne_nil_of_right_ne_nil _ (Parts.isRow_decimal n).ne_nil
  · intro c hc
    rcases List.mem_append.mp hc with hc | hc
    · rw [List.eq_of_mem_replicate hc]
      rfl
    · exact (Parts.isRow_decimal n).all c hc

/-- Just the names that are laid out as one of a log are read, as the number that their digits
denote. A row that is not all ASCII digits, or denotes no word, is not read; a word is read from
its numeral, with any number of zeros before it. -/
theorem nodeOfText?_reads (name : Text) :
    (∀ n, nodeOfText? name = some n ↔ ∃ stream digits tail, Around stream tail ∧
      name = stream ++ '_' :: (digits ++ tail) ∧ IsRow isAsciiDigit digits ∧
      digitsValue digits = n ∧ n < 2 ^ 64) ∧
    (∀ stream digits tail, Around stream tail → name = stream ++ '_' :: (digits ++ tail) →
      ¬ IsRow isAsciiDigit digits ∨ 2 ^ 64 ≤ digitsValue digits → nodeOfText? name = none) ∧
    ∀ stream tail n zeros, Around stream tail → n < 2 ^ 64 →
      name = stream ++ '_' :: (List.replicate zeros '0' ++ decimal n ++ tail) →
      nodeOfText? name = some n := by
  have hlimit : 2 ^ 64 = wordLimit := rfl
  rw [hlimit]
  refine ⟨fun n => ⟨?_, ?_⟩, ?_, ?_⟩
  · intro hread
    obtain ⟨stream, digits, tail, haround, rfl⟩ := exists_around_of_nodeOfText? hread
    rw [nodeOfText?_around haround] at hread
    exact ⟨stream, digits, tail, haround, rfl, readWord?_eq_some.mp hread⟩
  · rintro ⟨stream, digits, tail, haround, rfl, hword⟩
    rw [nodeOfText?_around haround]
    exact readWord?_eq_some.mpr hword
  · rintro stream digits tail haround rfl hdigits
    rw [nodeOfText?_around haround]
    exact readWord?_eq_none hdigits
  · rintro stream tail n zeros haround hn rfl
    rw [nodeOfText?_around haround]
    exact readWord?_zeros hn zeros

/-- With a long s, in mixed case and with zeros; one past the largest word; digits of another
script. -/
theorem nodeOfText?_reads_mixed :
    nodeOfText? "\u017fTDerr_007.LoG".toList = some 7 ∧
    nodeOfText? "stdout_18446744073709551616.log".toList = none ∧
    nodeOfText? "stdout_\u0663.log".toList = none :=
  ⟨(nodeOfText?_reads _).2.2 "\u017fTDerr".toList ".LoG".toList 7 2 (by decide) (by decide) rfl,
    (nodeOfText?_reads _).2.1 "stdout".toList "18446744073709551616".toList ".log".toList
      (by decide) rfl (.inr (by decide)),
    (nodeOfText?_reads _).2.1 "stdout".toList "\u0663".toList ".log".toList (by decide) rfl
      (.inl fun h => absurd (h.all '\u0663' (by decide)) (by decide))⟩

end NodeLogs.NodeLog
