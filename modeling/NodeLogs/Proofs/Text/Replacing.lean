import Mathlib.Algebra.Group.Nat.Defs
import Mathlib.Data.List.Infix
import Mathlib.Data.Nat.Find
import NodeLogs.Proofs.Text.Coding
import NodeLogs.Proofs.Text.Pieces

/-! What a byte string is read as. It is cut into encodings of characters and pieces that are
none, each as long as the beginning of an encoding goes, and every such piece stands for one
replacement character. The reader takes bytes one at a time and comes to the same: it goes on with
a byte if and only if some character has an encoding that begins so. -/

namespace NodeLogs.Utf8

/-! ### Replacing what encodes nothing -/

/-- How an encoding of a character begins. -/
def Begins (piece : Bytes) : Prop :=
  ∃ c, piece <+: encodeChar c

/-- At the front stands no character, but a piece that begins one, or a single byte, and no longer
piece begins one. -/
structure MaximalSubpart (piece rest : Bytes) : Prop where
  unconvertible : ∀ c, ¬ encodeChar c <+: piece ++ rest
  ne_nil : piece ≠ []
  begins : piece.length = 1 ∨ Begins piece
  longest : ∀ longer, longer <+: piece ++ rest → Begins longer → longer.length ≤ piece.length

/-- Bytes with the text that they are read as: encodings are read as their characters, and every
maximal piece that is none as the replacement character. -/
inductive Replaces : Bytes → Text → Prop
  | nil : Replaces [] []
  | char (c : Char) {bs : Bytes} {cs : Text} (rest : Replaces bs cs) :
      Replaces (encodeChar c ++ bs) (c :: cs)
  | subpart {piece bs : Bytes} {cs : Text} (h : MaximalSubpart piece bs) (rest : Replaces bs cs) :
      Replaces (piece ++ bs) (replacement :: cs)

theorem encodeChar_ne_nil (c : Char) : encodeChar c ≠ [] := by
  unfold encodeChar
  dsimp only
  repeat' split
  all_goals simp

/-- What encodes no character at its front begins with a maximal piece. -/
theorem exists_maximalSubpart {bs : Bytes} (hne : bs ≠ []) (h : ∀ c, ¬ encodeChar c <+: bs) :
    ∃ piece rest, bs = piece ++ rest ∧ MaximalSubpart piece rest := by
  classical
  have hlength : 1 ≤ bs.length := List.length_pos_iff.mpr hne
  let may (n : Nat) : Prop := n = 1 ∨ Begins (bs.take n)
  obtain ⟨n, hn⟩ : ∃ n, n = Nat.findGreatest may bs.length := ⟨_, rfl⟩
  have hmay : may n := hn ▸ Nat.findGreatest_spec hlength (.inl rfl)
  have hone : 1 ≤ n := hn ▸ Nat.le_findGreatest hlength (.inl rfl)
  have htake : (bs.take n).length = n :=
    List.length_take_of_le (hn ▸ Nat.findGreatest_le bs.length)
  refine ⟨bs.take n, bs.drop n, (List.take_append_drop n bs).symm, ?_, ?_, ?_, ?_⟩
  · rwa [List.take_append_drop]
  · exact List.length_pos_iff.mp (by omega)
  · rwa [htake]
  · intro longer hlonger hbegins
    rw [List.take_append_drop] at hlonger
    rw [htake, hn]
    refine Nat.le_findGreatest hlonger.length_le (.inr ?_)
    rwa [← List.prefix_iff_eq_take.mp hlonger]

theorem exists_replaces (bs : Bytes) : ∃ cs, Replaces bs cs := by
  induction h : bs.length using Nat.strong_induction_on generalizing bs with
  | h n ih =>
    subst h
    by_cases hne : bs = []
    · exact ⟨[], hne ▸ .nil⟩
    by_cases hchar : ∃ c, encodeChar c <+: bs
    · obtain ⟨c, rest, rfl⟩ := hchar
      have := List.length_pos_iff.mpr (encodeChar_ne_nil c)
      obtain ⟨cs, hcs⟩ := ih rest.length (by rw [List.length_append]; omega) rest rfl
      exact ⟨c :: cs, .char c hcs⟩
    · obtain ⟨piece, rest, rfl, hpiece⟩ := exists_maximalSubpart hne (not_exists.mp hchar)
      have := List.length_pos_iff.mpr hpiece.ne_nil
      obtain ⟨cs, hcs⟩ := ih rest.length (by rw [List.length_append]; omega) rest rfl
      exact ⟨replacement :: cs, .subpart hpiece hcs⟩

/-! ### Beginnings of characters -/

/-- The last bytes of an encoding. -/
def lastBytes : Nat → Nat → Bytes
  | 0, _ => []
  | count + 1, n => continuation (n / 0x40 ^ count) :: lastBytes count n

theorem encodeChar_ofNat_two {n : Nat} (hmin : 0x80 ≤ n) (hmax : n < 0x800) :
    encodeChar (Char.ofNat n) = UInt8.ofNat (0xC0 + n / 0x40) :: lastBytes 1 n := by
  have hn : (Char.ofNat n).toNat = n := toNat_ofNat_of_valid (.inl (by omega))
  unfold encodeChar
  rw [hn, if_neg (by omega), if_pos hmax]
  simp [lastBytes]

theorem encodeChar_ofNat_three {n : Nat} (hmin : 0x800 ≤ n) (hmax : n < 0x10000)
    (hvalid : n < 0xD800 ∨ 0xDFFF < n) :
    encodeChar (Char.ofNat n) = UInt8.ofNat (0xE0 + n / 0x1000) :: lastBytes 2 n := by
  have hn : (Char.ofNat n).toNat = n :=
    toNat_ofNat_of_valid (hvalid.imp id fun h => ⟨h, by omega⟩)
  unfold encodeChar
  rw [hn, if_neg (by omega), if_neg (by omega), if_pos hmax]
  simp [lastBytes]

theorem encodeChar_ofNat_four {n : Nat} (hmin : 0x10000 ≤ n) (hmax : n < 0x110000) :
    encodeChar (Char.ofNat n) = UInt8.ofNat (0xF0 + n / 0x40000) :: lastBytes 3 n := by
  have hn : (Char.ofNat n).toNat = n := toNat_ofNat_of_valid (.inr ⟨by omega, hmax⟩)
  unfold encodeChar
  rw [hn, if_neg (by omega), if_neg (by omega), if_neg (by omega)]
  simp [lastBytes]

namespace Reader

/-- The reader is within a character, with more bytes to come behind the next one: whatever fits
completes an encoding that begins with the piece. -/
structure Opens (piece : Bytes) (value more : Nat) (low high : UInt8) : Prop where
  low_le : 0x80 ≤ low.toNat
  low_le_high : low.toNat ≤ high.toNat
  high_le : high.toNat ≤ 0xBF
  completes : ∀ n, n / 0x40 ^ (more + 1) = value →
    low.toNat ≤ 0x80 + n / 0x40 ^ more % 0x40 → 0x80 + n / 0x40 ^ more % 0x40 ≤ high.toNat →
      encodeChar (Char.ofNat n) = piece ++ lastBytes (more + 1) n

theorem continuation_eq {b : UInt8} {n : Nat} (h : b.toNat = 0x80 + n % 0x40) :
    continuation n = b := by
  rw [← UInt8.toNat_inj, toNat_continuation, h]

/-- A byte that fits, with more to come. -/
theorem Opens.concat {piece : Bytes} {value more : Nat} {low high b : UInt8}
    (h : Opens piece value (more + 1) low high) (hlow : low.toNat ≤ b.toNat)
    (hhigh : b.toNat ≤ high.toNat) :
    Opens (piece ++ [b]) (0x40 * value + (b.toNat - 0x80)) more 0x80 0xBF := by
  have hmin := h.low_le
  have hmax := h.high_le
  refine ⟨Nat.le_refl _, by decide, Nat.le_refl _, fun n hn _ _ => ?_⟩
  have hdigit : b.toNat = 0x80 + n / 0x40 ^ (more + 1) % 0x40 := by omega
  have hvalue : n / 0x40 ^ (more + 1 + 1) = value := by
    rw [Nat.pow_succ 0x40 (more + 1), ← Nat.div_div_eq_div_mul]
    omega
  rw [h.completes n hvalue (hdigit ▸ hlow) (hdigit ▸ hhigh), lastBytes, continuation_eq hdigit,
    List.append_assoc, List.singleton_append]

/-- A byte that fits goes on with the beginning of a character. -/
theorem Opens.begins {piece : Bytes} {value more : Nat} {low high b : UInt8}
    (h : Opens piece value more low high) (hlow : low.toNat ≤ b.toNat)
    (hhigh : b.toNat ≤ high.toNat) : Begins (piece ++ [b]) := by
  have hmin := h.low_le
  have hmax := h.high_le
  let n := (0x40 * value + (b.toNat - 0x80)) * 0x40 ^ more
  have hpow : 0 < 0x40 ^ more := Nat.pow_pos (by decide)
  have hfront : n / 0x40 ^ more = 0x40 * value + (b.toNat - 0x80) := Nat.mul_div_cancel _ hpow
  have hdigit : b.toNat = 0x80 + n / 0x40 ^ more % 0x40 := by omega
  have hvalue : n / 0x40 ^ (more + 1) = value := by
    rw [Nat.pow_succ, ← Nat.div_div_eq_div_mul]
    omega
  refine ⟨Char.ofNat n, ?_⟩
  rw [h.completes n hvalue (hdigit ▸ hlow) (hdigit ▸ hhigh), lastBytes, continuation_eq hdigit]
  exact ⟨lastBytes more n, by simp⟩

theorem opens_two {b : UInt8} (hmin : 0xC2 ≤ b.toNat) (hmax : b.toNat ≤ 0xDF) :
    Opens [b] (b.toNat - 0xC0) 0 0x80 0xBF := by
  refine ⟨Nat.le_refl _, by decide, Nat.le_refl _, fun n hn _ _ => ?_⟩
  simp only [Nat.zero_add, Nat.pow_one] at hn
  have hb : UInt8.ofNat (0xC0 + n / 0x40) = b := by
    rw [← UInt8.toNat_inj, toNat_ofNat_of_lt (by omega)]
    omega
  rw [encodeChar_ofNat_two (by omega) (by omega), hb]
  rfl

/-- The bounds on the second byte leave out what is shorter, and surrogates. -/
theorem opens_three {b low high : UInt8} (hmin : 0xE0 ≤ b.toNat) (hmax : b.toNat ≤ 0xEF)
    (hlow : 0x80 ≤ low.toNat) (hle : low.toNat ≤ high.toNat) (hhigh : high.toNat ≤ 0xBF)
    (hE0 : b.toNat = 0xE0 → 0xA0 ≤ low.toNat) (hED : b.toNat = 0xED → high.toNat ≤ 0x9F) :
    Opens [b] (b.toNat - 0xE0) 1 low high := by
  refine ⟨hlow, hle, hhigh, fun n hn hfits hfits' => ?_⟩
  have hn : n / 0x1000 = b.toNat - 0xE0 := hn
  simp only [Nat.pow_one] at hfits hfits'
  have hb : UInt8.ofNat (0xE0 + n / 0x1000) = b := by
    rw [← UInt8.toNat_inj, toNat_ofNat_of_lt (by omega)]
    omega
  rw [encodeChar_ofNat_three (by omega) (by omega) (by omega), hb]
  rfl

theorem opens_four {b low high : UInt8} (hmin : 0xF0 ≤ b.toNat) (hmax : b.toNat ≤ 0xF4)
    (hlow : 0x80 ≤ low.toNat) (hle : low.toNat ≤ high.toNat) (hhigh : high.toNat ≤ 0xBF)
    (hF0 : b.toNat = 0xF0 → 0x90 ≤ low.toNat) (hF4 : b.toNat = 0xF4 → high.toNat ≤ 0x8F) :
    Opens [b] (b.toNat - 0xF0) 2 low high := by
  refine ⟨hlow, hle, hhigh, fun n hn hfits hfits' => ?_⟩
  have hn : n / 0x40000 = b.toNat - 0xF0 := hn
  have hfits : low.toNat ≤ 0x80 + n / 0x1000 % 0x40 := hfits
  have hfits' : 0x80 + n / 0x1000 % 0x40 ≤ high.toNat := hfits'
  have hb : UInt8.ofNat (0xF0 + n / 0x40000) = b := by
    rw [← UInt8.toNat_inj, toNat_ofNat_of_lt (by omega)]
    omega
  rw [encodeChar_ofNat_four (by omega) (by omega), hb]
  rfl

/-- A byte that starts afresh is a character, begins one, or does neither. -/
theorem start_cases (b : UInt8) :
    (start b = (idle, [Char.ofNat b.toNat]) ∧ encodeChar (Char.ofNat b.toNat) = [b]) ∨
      start b = (idle, [replacement]) ∨
      ∃ value more low high, start b = (within value (more + 1) low high, []) ∧
        Opens [b] value more low high := by
  have hstart := start_ofNat b.toNat_lt
  rw [UInt8.ofNat_toNat] at hstart
  rw [hstart]
  split
  next h =>
    refine .inl ⟨rfl, ?_⟩
    have hn : (Char.ofNat b.toNat).toNat = b.toNat := toNat_ofNat_of_valid (.inl (by omega))
    unfold encodeChar
    rw [hn, if_pos h, UInt8.ofNat_toNat]
  split
  next h => exact .inr (.inr ⟨_, _, _, _, rfl, opens_two h.1 h.2⟩)
  split
  next h =>
    have hopens := @opens_three b 0xA0 0xBF (by omega) (by omega) (by decide) (by decide)
      (by decide) (fun _ => by decide) (by omega)
    rw [h] at hopens
    exact .inr (.inr ⟨_, _, _, _, rfl, hopens⟩)
  split
  next h =>
    have hopens := @opens_three b 0x80 0x9F (by omega) (by omega) (by decide) (by decide)
      (by decide) (by omega) (fun _ => by decide)
    rw [h] at hopens
    exact .inr (.inr ⟨_, _, _, _, rfl, hopens⟩)
  split
  next h =>
    exact .inr (.inr ⟨_, _, _, _, rfl,
      opens_three (by omega) h.2 (by decide) (by decide) (by decide) (by omega) (by omega)⟩)
  split
  next h =>
    have hopens := @opens_four b 0x90 0xBF (by omega) (by omega) (by decide) (by decide)
      (by decide) (fun _ => by decide) (by omega)
    rw [h] at hopens
    exact .inr (.inr ⟨_, _, _, _, rfl, hopens⟩)
  split
  next h =>
    exact .inr (.inr ⟨_, _, _, _, rfl, opens_four (by omega) (by omega) (by decide) (by decide)
      (by decide) (by omega) (by omega)⟩)
  split
  next h =>
    have hopens := @opens_four b 0x80 0x8F (by omega) (by omega) (by decide) (by decide)
      (by decide) (by omega) (fun _ => by decide)
    rw [h] at hopens
    exact .inr (.inr ⟨_, _, _, _, rfl, hopens⟩)
  · exact .inr (.inl rfl)

/-- A byte that fits goes on with a character or completes it; any other is read afresh, behind
the replacement of what was open. -/
theorem push_within (value more : Nat) (low high b : UInt8) :
    (within value (more + 1) low high).push b =
      if low.toNat ≤ b.toNat ∧ b.toNat ≤ high.toNat then
        if more = 0 then (idle, [Char.ofNat (0x40 * value + (b.toNat - 0x80))])
        else (within (0x40 * value + (b.toNat - 0x80)) more 0x80 0xBF, [])
      else ((start b).1, replacement :: (start b).2) := by
  have hmore : more + 1 ≤ 1 ↔ more = 0 := by omega
  simp only [push, UInt8.le_iff_toNat_le, Bool.and_eq_true, decide_eq_true_eq,
    Nat.add_sub_cancel, hmore]

theorem start_append_finish_ne_nil (b : UInt8) : (start b).2 ++ (start b).1.finish ≠ [] := by
  rcases start_cases b with ⟨hstart, -⟩ | hstart | ⟨value, more, low, high, hstart, -⟩ <;>
    simp [hstart, finish]

/-- Something is read of at least one byte. -/
theorem run_ne_nil (reader : Reader) {bs : Bytes} (h : bs ≠ []) : reader.run [] bs ≠ [] := by
  induction bs generalizing reader with
  | nil => exact absurd rfl h
  | cons b bs ih =>
    rw [run_cons]
    by_cases hbs : bs = []
    · subst hbs
      rw [run_nil]
      cases reader with
      | idle => exact start_append_finish_ne_nil b
      | within value missing low high =>
        simp only [push]
        repeat' split
        all_goals simp [finish]
    · exact List.append_ne_nil_of_right_ne_nil _ (ih _ hbs)

/-- Nothing is read before the last byte of an encoding. -/
theorem eq_nil_of_run_encodeChar {c : Char} {out : Text} {reader : Reader} {more : Bytes}
    (hmore : more ≠ []) (h : idle.run [] (encodeChar c) = out ++ reader.run [] more) :
    out = [] := by
  have hone := run_encodeChar c []
  rw [List.append_nil, run_nil, h] at hone
  have hlength : out.length + (reader.run [] more).length = 1 := by
    rw [← List.length_append, hone]
    rfl
  have := List.length_pos_iff.mpr (run_ne_nil reader hmore)
  exact List.length_eq_zero_iff.mp (by omega)

/-- While a byte string only begins an encoding, the reader is within a character. -/
theorem exists_opens {c : Char} {piece more : Bytes} (hpiece : piece ≠ []) (hmore : more ≠ [])
    (hc : encodeChar c = piece ++ more) :
    ∃ value count low high, Opens piece value count low high ∧
      ∀ bs, idle.run [] (piece ++ bs) = (within value (count + 1) low high).run [] bs := by
  induction piece using List.reverseRecOn generalizing more with
  | nil => exact absurd rfl hpiece
  | append_singleton front b ih =>
    by_cases hfront : front = []
    · subst hfront
      rw [List.nil_append, List.singleton_append] at hc
      have hrun := congrArg (idle.run []) hc
      rw [run_cons] at hrun
      have hsilent : (start b).2 = [] := eq_nil_of_run_encodeChar hmore hrun
      rcases start_cases b with ⟨hstart, -⟩ | hstart | ⟨value, count, low, high, hstart, hopens⟩
      · simp [hstart] at hsilent
      · simp [hstart] at hsilent
      · refine ⟨value, count, low, high, hopens, fun bs => ?_⟩
        rw [List.nil_append, List.singleton_append, run_cons]
        show (start b).2 ++ (start b).1.run [] bs = _
        rw [hstart, List.nil_append]
    · rw [List.append_assoc, List.singleton_append] at hc
      obtain ⟨value, count, low, high, hopens, hrun⟩ := ih hfront (List.cons_ne_nil b more) hc
      have hlast := (congrArg (idle.run []) hc).trans (hrun (b :: more))
      rw [run_cons] at hlast
      have hsilent := eq_nil_of_run_encodeChar hmore hlast
      rw [push_within] at hsilent
      split at hsilent
      next hfits =>
        cases count with
        | zero => simp at hsilent
        | succ count =>
          refine ⟨_, count, _, _, hopens.concat hfits.1 hfits.2, fun bs => ?_⟩
          rw [List.append_assoc, hrun, List.singleton_append, run_cons, push_within,
            if_pos hfits, if_neg (Nat.succ_ne_zero count), List.nil_append]
      · simp at hsilent

end Reader

/-- A maximal piece is read as one replacement character, and the next byte afresh. -/
theorem run_maximalSubpart {piece rest : Bytes} (h : MaximalSubpart piece rest) :
    Reader.idle.run [] (piece ++ rest) = replacement :: Reader.idle.run [] rest := by
  by_cases hbegins : Begins piece
  · obtain ⟨c, more, hc⟩ := hbegins
    have hmore : more ≠ [] := by
      rintro rfl
      exact h.unconvertible c ⟨rest, by rw [← hc, List.append_nil]⟩
    obtain ⟨value, count, low, high, hopens, hrun⟩ := Reader.exists_opens h.ne_nil hmore hc.symm
    rw [hrun]
    cases rest with
    | nil => rfl
    | cons b rest =>
      have hfits : ¬ (low.toNat ≤ b.toNat ∧ b.toNat ≤ high.toNat) := fun ⟨hlow, hhigh⟩ => by
        have hle := h.longest (piece ++ [b]) ⟨rest, by simp⟩ (hopens.begins hlow hhigh)
        rw [List.length_append, List.length_singleton] at hle
        omega
      rw [Reader.run_cons, Reader.run_cons, Reader.push_within, if_neg hfits]
      rfl
  · obtain ⟨b, rfl⟩ := List.length_eq_one_iff.mp (h.begins.resolve_right hbegins)
    rw [List.singleton_append, Reader.run_cons]
    show (Reader.start b).2 ++ (Reader.start b).1.run [] rest = _
    rcases Reader.start_cases b with ⟨-, hchar⟩ | hstart | ⟨value, count, low, high, -, hopens⟩
    · exact absurd ⟨rest, by rw [hchar]⟩ (h.unconvertible (Char.ofNat b.toNat))
    · rw [hstart]
      rfl
    · obtain ⟨c, more, hc⟩ := hopens.begins (Nat.le_refl _) hopens.low_le_high
      exact absurd ⟨c, low :: more, by simpa using hc⟩ hbegins

/-- The reading of a byte string is the text with every maximal piece that encodes nothing
replaced, and there is no other such text. -/
theorem replaces_iff {bs : Bytes} {cs : Text} : Replaces bs cs ↔ cs = decodeLossy bs := by
  have hread {bs : Bytes} {cs : Text} (h : Replaces bs cs) : cs = decodeLossy bs := by
    induction h with
    | nil => rfl
    | char c _ ih => rw [decodeLossy, Reader.run_encodeChar, ih, decodeLossy]
    | subpart hpiece _ ih => rw [decodeLossy, run_maximalSubpart hpiece, ih, decodeLossy]
  refine ⟨hread, ?_⟩
  rintro rfl
  obtain ⟨cs, hcs⟩ := exists_replaces bs
  rwa [← hread hcs]

/-! ### Line feeds -/

/-- A line feed is in no encoding but its own. -/
theorem eq_feed_of_mem {c : Char} (h : 0x0A ∈ encodeChar c) : encodeChar c = [0x0A] := by
  obtain rfl : c = '\n' := Char.toNat_inj.mp ((mem_encodeChar (n := 0x0A) (by decide)).mp h)
  rfl

/-- So no beginning of an encoding goes on past one. -/
theorem prefix_of_prefix_feed {c : Char} {cs xs ys : Bytes} (hxs : xs ≠ [])
    (hc : cs <+: encodeChar c) (h : cs <+: xs ++ 0x0A :: ys) : cs <+: xs := by
  rcases List.prefix_or_prefix_of_prefix h (List.prefix_append xs _) with hle | ⟨more, rfl⟩
  · exact hle
  · have hmore := (List.prefix_append_right_inj xs).mp h
    cases more with
    | nil => simp
    | cons b more =>
      obtain ⟨rfl, -⟩ := List.cons_prefix_cons.mp hmore
      have hfeed := eq_feed_of_mem (hc.subset (by simp))
      have hlength := hc.length_le
      have := List.length_pos_iff.mpr hxs
      rw [hfeed] at hlength
      simp at hlength
      omega

theorem MaximalSubpart.before_feed {piece rest : Bytes} (h : MaximalSubpart piece rest)
    (ys : Bytes) : MaximalSubpart piece (rest ++ 0x0A :: ys) := by
  have hne : piece ++ rest ≠ [] := List.append_ne_nil_of_left_ne_nil h.ne_nil _
  refine ⟨fun c hc => ?_, h.ne_nil, h.begins, fun longer hlonger hbegins => ?_⟩
  · rw [← List.append_assoc] at hc
    exact h.unconvertible c (prefix_of_prefix_feed hne (List.prefix_refl _) hc)
  · obtain ⟨c, hc⟩ := hbegins
    rw [← List.append_assoc] at hlonger
    exact h.longest longer (prefix_of_prefix_feed hne hc hlonger) ⟨c, hc⟩

theorem Replaces.feed {xs ys : Bytes} {cs ds : Text} (hx : Replaces xs cs) (hy : Replaces ys ds) :
    Replaces (xs ++ 0x0A :: ys) (cs ++ '\n' :: ds) := by
  induction hx with
  | nil => exact .char '\n' hy
  | char c _ ih =>
    rw [List.append_assoc]
    exact .char c ih
  | subpart hpiece _ ih =>
    rw [List.append_assoc]
    exact .subpart (hpiece.before_feed ys) ih

/-- Line feeds are read from line feeds. -/
theorem Replaces.feed_mem {bs : Bytes} {cs : Text} (h : Replaces bs cs) (hmem : '\n' ∈ cs) :
    0x0A ∈ bs := by
  induction h with
  | nil => cases hmem
  | char c _ ih =>
    rcases List.mem_cons.mp hmem with rfl | hmem
    · exact List.mem_append_left _ (by decide)
    · exact List.mem_append_right _ (ih hmem)
  | subpart _ _ ih =>
    rcases List.mem_cons.mp hmem with heq | hmem
    · exact absurd heq (by decide)
    · exact List.mem_append_right _ (ih hmem)

/-- What is read before a line feed and what behind it do not depend on each other. -/
theorem decodeLossy_feed (xs ys : Bytes) :
    decodeLossy (xs ++ 0x0A :: ys) = decodeLossy xs ++ '\n' :: decodeLossy ys :=
  (replaces_iff.mp (.feed (replaces_iff.mpr rfl) (replaces_iff.mpr rfl))).symm

theorem feed_not_mem_decodeLossy {bs : Bytes} (h : 0x0A ∉ bs) : '\n' ∉ decodeLossy bs :=
  fun hmem => h ((replaces_iff.mpr rfl).feed_mem hmem)

/-- To cut bytes behind their line feeds and read the pieces is to cut what is read of them all. -/
theorem map_decodeLossy_cutAfter (bs : Bytes) :
    (cutAfter 0x0A bs).map decodeLossy = cutAfter '\n' (decodeLossy bs) := by
  induction bs using separator_induction (0x0A : UInt8) with
  | last bs h =>
    rw [cutAfter_of_not_mem h, cutAfter_of_not_mem (feed_not_mem_decodeLossy h)]
    by_cases hbs : bs = []
    · subst hbs
      rfl
    · have hread : decodeLossy bs ≠ [] := Reader.run_ne_nil .idle hbs
      rw [if_neg hbs, if_neg hread]
      rfl
  | piece xs rest h ih =>
    have hline : decodeLossy (xs ++ [0x0A]) = decodeLossy xs ++ ['\n'] := decodeLossy_feed xs []
    rw [cutAfter_append h, decodeLossy_feed, cutAfter_append (feed_not_mem_decodeLossy h),
      List.map_cons, ih, hline]

end NodeLogs.Utf8
