import NodeLogs.Proofs.Text.Coding

/-! The order of texts and that of their encodings. The encoding of a later character comes later,
whatever stands behind either, so that texts come in the order of their bytes. -/

namespace NodeLogs.Utf8

theorem ofNat_lt_iff {m n : Nat} (hm : m < 0x100) (hn : n < 0x100) :
    UInt8.ofNat m < UInt8.ofNat n ↔ m < n := by
  rw [UInt8.lt_iff_toNat_lt, toNat_ofNat_of_lt hm, toNat_ofNat_of_lt hn]

theorem ofNat_inj {m n : Nat} (hm : m < 0x100) (hn : n < 0x100) :
    UInt8.ofNat m = UInt8.ofNat n ↔ m = n := by
  rw [← UInt8.toNat_inj, toNat_ofNat_of_lt hm, toNat_ofNat_of_lt hn]

/-- The digits of a character's number that the bytes of its encoding hold. -/
theorem eq_digits (n : Nat) : n = 0x40000 * (n / 0x40000) + 0x1000 * (n / 0x1000 % 0x40) +
    0x40 * (n / 0x40 % 0x40) + n % 0x40 := by
  omega

theorem encodeChar_lt {c d : Char} (h : c.toNat < d.toNat) (bs cs : Bytes) :
    encodeChar c ++ bs < encodeChar d ++ cs := by
  have hmax : d.toNat < 0x110000 := by
    rcases d.valid with h | h
    · exact Nat.lt_trans h (by decide)
    · exact h.2
  unfold encodeChar continuation
  generalize c.toNat = m at h
  generalize d.toNat = n at h hmax
  have hm := eq_digits m
  have hn := eq_digits n
  dsimp only
  -- First bytes tell encodings of different lengths apart. In those of one length the digits
  -- come from the highest down.
  repeat' split
  all_goals
    simp (disch := omega) only [List.cons_append, List.nil_append, List.cons_lt_cons_iff,
      ofNat_lt_iff, ofNat_inj]
    omega

theorem encode_lt {cs ds : Text} (h : cs < ds) : encode cs < encode ds := by
  induction cs generalizing ds with
  | nil =>
    cases ds with
    | nil => exact absurd h (List.lt_irrefl _)
    | cons d ds =>
      have hne : encode (d :: ds) ≠ [] := by
        intro hnil
        have hread := decodeLossy_encode (d :: ds)
        rw [hnil] at hread
        cases hread
      obtain ⟨b, bs, hbs⟩ := List.exists_cons_of_ne_nil hne
      rw [hbs]
      exact List.nil_lt_cons _ _
  | cons c cs ih =>
    cases ds with
    | nil => exact absurd h (List.not_lt_nil _)
    | cons d ds =>
      rw [encode_cons, encode_cons]
      rcases List.cons_lt_cons_iff.mp h with hlt | ⟨rfl, hlt⟩
      · exact encodeChar_lt hlt _ _
      · exact List.append_left_lt (ih hlt)

/-- Texts come in the order of their encodings. -/
theorem encode_lt_iff {cs ds : Text} : encode cs < encode ds ↔ cs < ds := by
  refine ⟨fun h => ?_, encode_lt⟩
  by_cases hlt : cs < ds
  · exact hlt
  rcases List.le_iff_lt_or_eq.mp (List.not_lt.mp hlt) with hlt | rfl
  · exact absurd (encode_lt hlt) (List.lt_asymm h)
  · exact absurd h (List.lt_irrefl _)

end NodeLogs.Utf8
