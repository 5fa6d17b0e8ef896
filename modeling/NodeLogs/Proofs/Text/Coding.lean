import Mathlib.Data.List.Basic
import NodeLogs.Text.Utf8

/-! Texts and their encodings. Every text is read back from its encoding, and an ASCII
character has its own byte there and in no other character. -/

namespace NodeLogs.Utf8

/-! ### One character, one byte -/

theorem toNat_ofNat_of_valid {n : Nat} (h : n.isValidChar) : (Char.ofNat n).toNat = n := by
  rw [Char.ofNat, dif_pos h]
  rfl

theorem toNat_ofNat_of_lt {n : Nat} (h : n < 0x100) : (UInt8.ofNat n).toNat = n := by
  rw [UInt8.toNat_ofNat', Nat.mod_eq_of_lt (by simpa using h)]

theorem toNat_continuation (n : Nat) : (continuation n).toNat = 0x80 + n % 0x40 :=
  toNat_ofNat_of_lt (by omega)

namespace Reader

/-- A byte that goes on with a character brings six bits. -/
theorem push_continuation {value missing n : Nat} {low high : UInt8}
    (hlow : low.toNat ≤ 0x80 + n % 0x40) (hhigh : 0x80 + n % 0x40 ≤ high.toNat) :
    (within value missing low high).push (continuation n) =
      if missing ≤ 1 then (idle, [Char.ofNat (0x40 * value + n % 0x40)])
      else (within (0x40 * value + n % 0x40) (missing - 1) 0x80 0xBF, []) := by
  have hbounds : (low ≤ continuation n && continuation n ≤ high) = true := by
    simp only [Bool.and_eq_true, decide_eq_true_eq, UInt8.le_iff_toNat_le, toNat_continuation]
    exact ⟨hlow, hhigh⟩
  simp only [push, hbounds, if_true, toNat_continuation, Nat.add_sub_cancel_left]

/-- How a byte starts afresh, by its number. -/
theorem start_ofNat {n : Nat} (h : n < 0x100) : start (UInt8.ofNat n) =
    if n < 0x80 then (idle, [Char.ofNat n])
    else if 0xC2 ≤ n ∧ n ≤ 0xDF then (within (n - 0xC0) 1 0x80 0xBF, [])
    else if n = 0xE0 then (within 0 2 0xA0 0xBF, [])
    else if n = 0xED then (within 0xD 2 0x80 0x9F, [])
    else if 0xE1 ≤ n ∧ n ≤ 0xEF then (within (n - 0xE0) 2 0x80 0xBF, [])
    else if n = 0xF0 then (within 0 3 0x90 0xBF, [])
    else if 0xF1 ≤ n ∧ n ≤ 0xF3 then (within (n - 0xF0) 3 0x80 0xBF, [])
    else if n = 0xF4 then (within 4 3 0x80 0x8F, [])
    else (idle, [replacement]) := by
  simp only [start, UInt8.lt_iff_toNat_lt, UInt8.le_iff_toNat_le, ← UInt8.toNat_inj,
    toNat_ofNat_of_lt h, Bool.and_eq_true, decide_eq_true_eq]
  rfl

/-! ### What a character begins with -/

theorem start_two {n : Nat} (hmin : 0x80 ≤ n) (hmax : n < 0x800) :
    start (UInt8.ofNat (0xC0 + n / 0x40)) = (within (n / 0x40) 1 0x80 0xBF, []) := by
  rw [start_ofNat (by omega), if_neg (by omega), if_pos (by omega), Nat.add_sub_cancel_left]

/-- The first of three bytes allows the second. Surrogates are no characters, so that it need
not allow theirs. -/
theorem start_three {n : Nat} (hmin : 0x800 ≤ n) (hmax : n < 0x10000)
    (hvalid : n < 0xD800 ∨ 0xDFFF < n) : ∃ low high : UInt8,
    start (UInt8.ofNat (0xE0 + n / 0x1000)) = (within (n / 0x1000) 2 low high, []) ∧
      low.toNat ≤ 0x80 + n / 0x40 % 0x40 ∧ 0x80 + n / 0x40 % 0x40 ≤ high.toNat := by
  rw [start_ofNat (by omega), if_neg (by omega), if_neg (by omega)]
  by_cases hE0 : n / 0x1000 = 0
  · rw [hE0, if_pos rfl]
    exact ⟨_, _, rfl, show 0xA0 ≤ _ by omega, show _ ≤ 0xBF by omega⟩
  rw [if_neg (by omega)]
  by_cases hED : n / 0x1000 = 0xD
  · rw [hED, if_pos rfl]
    exact ⟨_, _, rfl, show 0x80 ≤ _ by omega, show _ ≤ 0x9F by omega⟩
  rw [if_neg (by omega), if_pos (by omega), Nat.add_sub_cancel_left]
  exact ⟨_, _, rfl, show 0x80 ≤ _ by omega, show _ ≤ 0xBF by omega⟩

theorem start_four {n : Nat} (hmin : 0x10000 ≤ n) (hmax : n < 0x110000) : ∃ low high : UInt8,
    start (UInt8.ofNat (0xF0 + n / 0x40000)) = (within (n / 0x40000) 3 low high, []) ∧
      low.toNat ≤ 0x80 + n / 0x1000 % 0x40 ∧ 0x80 + n / 0x1000 % 0x40 ≤ high.toNat := by
  rw [start_ofNat (by omega), if_neg (by omega), if_neg (by omega), if_neg (by omega),
    if_neg (by omega), if_neg (by omega)]
  by_cases hF0 : n / 0x40000 = 0
  · rw [hF0, if_pos rfl]
    exact ⟨_, _, rfl, show 0x90 ≤ _ by omega, show _ ≤ 0xBF by omega⟩
  rw [if_neg (by omega)]
  by_cases hF4 : n / 0x40000 = 4
  · rw [hF4, if_neg (by omega), if_pos rfl]
    exact ⟨_, _, rfl, show 0x80 ≤ _ by omega, show _ ≤ 0x8F by omega⟩
  rw [if_pos (by omega), Nat.add_sub_cancel_left]
  exact ⟨_, _, rfl, show 0x80 ≤ _ by omega, show _ ≤ 0xBF by omega⟩

/-- The encoding of a character is read as that character. -/
theorem run_encodeChar (c : Char) (bs : Bytes) :
    idle.run [] (encodeChar c ++ bs) = c :: idle.run [] bs := by
  have hchar : Char.ofNat c.toNat = c := Char.ofNat_toNat c
  have hvalid : c.toNat < 0xD800 ∨ 0xDFFF < c.toNat ∧ c.toNat < 0x110000 := c.valid
  have hwhole {m : Nat} (hm : m = c.toNat) : [Char.ofNat m] ++ idle.run [] bs = c :: idle.run [] bs := by
    rw [hm, hchar]
    rfl
  unfold encodeChar
  generalize c.toNat = n at hvalid hwhole
  have hlast : (0x80 : UInt8).toNat ≤ 0x80 + n % 0x40 := Nat.le_add_right ..
  have hlast' : 0x80 + n % 0x40 ≤ (0xBF : UInt8).toNat := show _ ≤ 0xBF by omega
  have hmid : (0x80 : UInt8).toNat ≤ 0x80 + n / 0x40 % 0x40 := Nat.le_add_right ..
  have hmid' : 0x80 + n / 0x40 % 0x40 ≤ (0xBF : UInt8).toNat := show _ ≤ 0xBF by omega
  dsimp only
  by_cases hone : n < 0x80
  · rw [if_pos hone, List.singleton_append, run_cons]
    have hpush : idle.push (UInt8.ofNat n) = (idle, [Char.ofNat n]) := by
      show start _ = _
      rw [start_ofNat (by omega), if_pos hone]
    rw [hpush, hwhole rfl]
  rw [if_neg hone]
  by_cases htwo : n < 0x800
  · have hpush : idle.push (UInt8.ofNat (0xC0 + n / 0x40)) = _ := start_two (by omega) htwo
    rw [if_pos htwo, List.cons_append, run_cons, hpush, List.singleton_append, run_cons,
      push_continuation hlast hlast', if_pos (Nat.le_refl 1), List.nil_append, hwhole (by omega)]
  rw [if_neg htwo]
  by_cases hthree : n < 0x10000
  · obtain ⟨low, high, hstart, hlow, hhigh⟩ := start_three (by omega) hthree (by omega)
    have hpush : idle.push (UInt8.ofNat (0xE0 + n / 0x1000)) = _ := hstart
    rw [if_pos hthree, List.cons_append, run_cons, hpush, List.cons_append, run_cons,
      push_continuation hlow hhigh, if_neg (by decide), List.singleton_append, run_cons,
      push_continuation hlast hlast', if_pos (Nat.le_refl 1), List.nil_append, List.nil_append,
      hwhole (by omega)]
  · obtain ⟨low, high, hstart, hlow, hhigh⟩ := start_four (n := n) (by omega) (by omega)
    have hpush : idle.push (UInt8.ofNat (0xF0 + n / 0x40000)) = _ := hstart
    rw [if_neg hthree, List.cons_append, run_cons, hpush, List.cons_append, run_cons,
      push_continuation hlow hhigh, if_neg (by decide), List.cons_append, run_cons,
      push_continuation hmid hmid', if_neg (by decide), List.singleton_append, run_cons,
      push_continuation hlast hlast', if_pos (Nat.le_refl 1), List.nil_append, List.nil_append,
      List.nil_append, hwhole (by omega)]

end Reader

/-! ### Texts -/

/-- Every text is read back from its encoding. -/
theorem decodeLossy_encode (cs : Text) : decodeLossy (encode cs) = cs := by
  unfold decodeLossy
  induction cs with
  | nil => rfl
  | cons c cs ih => rw [encode_cons, Reader.run_encodeChar, ih]

@[simp] theorem decode?_encode (cs : Text) : decode? (encode cs) = some cs := by
  simp only [decode?, decodeLossy_encode, if_true]

/-- What bytes are decoded to is encoded by them. -/
theorem encode_of_decode? {bs : Bytes} {cs : Text} (h : decode? bs = some cs) : encode cs = bs := by
  simp only [decode?] at h
  split at h
  next hencode =>
    cases h
    exact hencode
  · cases h

/-- The byte of an ASCII character stands for that character only. -/
theorem mem_encodeChar {n : Nat} (hn : n < 0x80) {c : Char} :
    UInt8.ofNat n ∈ encodeChar c ↔ c.toNat = n := by
  have hbyte {m : Nat} (hm : m < 0x100) : UInt8.ofNat n = UInt8.ofNat m ↔ n = m := by
    rw [← UInt8.toNat_inj, toNat_ofNat_of_lt (by omega), toNat_ofNat_of_lt hm]
  have hfirst {m : Nat} (hmin : 0x80 ≤ m) (hmax : m < 0x100) : UInt8.ofNat n ≠ UInt8.ofNat m :=
    mt (hbyte hmax).mp (by omega)
  have hlater (m : Nat) : UInt8.ofNat n ≠ continuation m := hfirst (by omega) (by omega)
  have hmax : c.toNat < 0x110000 := by
    rcases c.valid with h | h
    · exact Nat.lt_trans h (by decide)
    · exact h.2
  unfold encodeChar
  dsimp only
  split
  · rw [List.mem_singleton, hbyte (by omega), eq_comm]
  refine iff_of_false ?_ (by omega)
  split
  · simp only [List.mem_cons, List.not_mem_nil, or_false, not_or]
    exact ⟨hfirst (by omega) (by omega), hlater _⟩
  split
  · simp only [List.mem_cons, List.not_mem_nil, or_false, not_or]
    exact ⟨hfirst (by omega) (by omega), hlater _, hlater _⟩
  · simp only [List.mem_cons, List.not_mem_nil, or_false, not_or]
    exact ⟨hfirst (by omega) (by omega), hlater _, hlater _, hlater _⟩

theorem mem_encode {n : Nat} (hn : n < 0x80) {cs : Text} :
    UInt8.ofNat n ∈ encode cs ↔ ∃ c ∈ cs, c.toNat = n := by
  simp only [encode, List.mem_flatMap, mem_encodeChar hn]

/-- An ASCII text is as long as its encoding. -/
theorem length_encode {cs : Text} (h : ∀ c ∈ cs, c.toNat < 0x80) : (encode cs).length = cs.length := by
  induction cs with
  | nil => rfl
  | cons c cs ih =>
    obtain ⟨hc, hcs⟩ := List.forall_mem_cons.mp h
    have hone : (encodeChar c).length = 1 := by
      unfold encodeChar
      rw [if_pos hc]
      rfl
    rw [encode_cons, List.length_append, hone, ih hcs, List.length_cons, Nat.add_comm]

end NodeLogs.Utf8
