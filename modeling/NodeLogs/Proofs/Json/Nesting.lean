import NodeLogs.Proofs.Json.Spelling

/-! How deep values nest, and what a decoder with a limit makes of them. More depth never
changes what is decoded, so that a printed value is decoded to itself by every decoder whose
limit it keeps to, and by no other. -/

namespace NodeLogs.Json

/-! ### Nesting -/

mutual

/-- How many containers stand inside one another. -/
def Value.nesting : Value → Nat
  | .array items => nestingOfItems items + 1
  | .object members => nestingOfMembers members + 1
  | _ => 0

def nestingOfItems : List Value → Nat
  | [] => 0
  | v :: vs => max v.nesting (nestingOfItems vs)

def nestingOfMembers : List (Text × Value) → Nat
  | [] => 0
  | (_, v) :: rest => max v.nesting (nestingOfMembers rest)

end

theorem nestingOfItems_le {items : List Value} {d : Nat} :
    nestingOfItems items ≤ d ↔ ∀ v ∈ items, v.nesting ≤ d := by
  induction items with
  | nil => simp [nestingOfItems]
  | cons v items ih => rw [nestingOfItems, Nat.max_le, ih, List.forall_mem_cons]

theorem nestingOfMembers_le {members : Object} {d : Nat} :
    nestingOfMembers members ≤ d ↔ ∀ m ∈ members, m.2.nesting ≤ d := by
  induction members with
  | nil => simp [nestingOfMembers]
  | cons m members ih => rw [nestingOfMembers, Nat.max_le, ih, List.forall_mem_cons]

theorem Value.nesting_object_le {members : Object} {d : Nat} :
    (Value.object members).nesting ≤ d + 1 ↔ ∀ m ∈ members, m.2.nesting ≤ d := by
  rw [Value.nesting, Nat.add_le_add_iff_right, nestingOfMembers_le]

/-- The value of a member nests less deep than its object. -/
theorem Value.nesting_lt_of_mem {members : Object} {m : Text × Value} (hm : m ∈ members) :
    m.2.nesting < (Value.object members).nesting :=
  Nat.lt_succ_of_le (nestingOfMembers_le.mp (Nat.le_refl _) m hm)

theorem Value.Kept.nesting_le {d : Nat} {v : Value} (h : v.Kept d) : v.nesting ≤ d := by
  induction h with
  | null | bool | number | string => exact Nat.zero_le _
  | array _ ih => exact Nat.succ_le_succ (nestingOfItems_le.mpr ih)
  | object _ _ ih => exact Value.nesting_object_le.mpr ih

/-- A value is kept within every depth that it does not exceed. -/
theorem Value.Kept.of_nesting_le {d d' : Nat} {v : Value} (h : v.Kept d) (hle : v.nesting ≤ d') :
    v.Kept d' := by
  induction h generalizing d' with
  | null => exact .null
  | bool b => exact .bool b
  | number h => exact .number h
  | string s => exact .string s
  | array _ ih =>
    obtain ⟨d', rfl⟩ := Nat.exists_eq_add_one.mpr (Nat.lt_of_lt_of_le (Nat.succ_pos _) hle)
    exact .array fun v hv => ih v hv (nestingOfItems_le.mp (Nat.le_of_succ_le_succ hle) v hv)
  | object hkeys _ ih =>
    obtain ⟨d', rfl⟩ := Nat.exists_eq_add_one.mpr (Nat.lt_of_lt_of_le (Nat.succ_pos _) hle)
    exact .object hkeys fun m hm => ih m hm (Value.nesting_object_le.mp hle m hm)

/-! ### Decoding with more depth -/

namespace Decoder

/-- What one reader takes off a text, another takes off too. -/
def Extends (element other : Text → Option (Value × Text)) : Prop :=
  ∀ ⦃cs r⦄, element cs = some r → other cs = some r

section Containers

variable {element other : Text → Option (Value × Text)} (h : Extends element other)
include h

theorem items?_extends (fuel : Nat) (done : List Value) :
    Extends (items? element fuel done) (items? other fuel done) := by
  induction fuel generalizing done with
  | zero => exact fun _ _ hitems => hitems
  | succ fuel ih =>
    intro cs r hitems
    unfold items? at hitems ⊢
    cases hread : element (skipSpace cs) with
    | none =>
      rw [hread] at hitems
      cases hitems
    | some read =>
      rw [hread] at hitems
      rw [h hread]
      dsimp only at hitems ⊢
      split at hitems
      · exact ih _ hitems
      · exact hitems
      · cases hitems

theorem member?_extends {cs : Text} {r : Text × Value × Text} (hmember : member? element cs = some r) :
    member? other cs = some r := by
  unfold member? at hmember ⊢
  split at hmember
  · split at hmember
    · cases hmember
    · split at hmember
      · obtain ⟨read, hread, rfl⟩ := Option.map_eq_some_iff.mp hmember
        exact congrArg (Option.map _) (h hread)
      · cases hmember
  · cases hmember

theorem members?_extends (fuel : Nat) (done : Object) :
    Extends (members? element fuel done) (members? other fuel done) := by
  induction fuel generalizing done with
  | zero => exact fun _ _ hmembers => hmembers
  | succ fuel ih =>
    intro cs r hmembers
    unfold members? at hmembers ⊢
    cases hread : member? element cs with
    | none =>
      rw [hread] at hmembers
      cases hmembers
    | some read =>
      rw [hread] at hmembers
      rw [member?_extends h hread]
      dsimp only at hmembers ⊢
      split at hmembers
      · exact ih _ hmembers
      · exact hmembers
      · cases hmembers

end Containers

/-- One more level of containers. -/
theorem value?_extends_succ (size depth : Nat) :
    Extends (value? size depth) (value? size (depth + 1)) := by
  induction depth with
  | zero =>
    intro cs r hread
    unfold value? at hread ⊢
    split at hread
    · cases hread
    · cases hread
    · exact hread
  | succ depth ih =>
    intro cs r hread
    unfold value? at hread ⊢
    split at hread
    · split at hread
      · exact hread
      · exact items?_extends ih size [] hread
    · split at hread
      · exact hread
      · exact members?_extends ih size [] hread
    · exact hread

theorem value?_extends (size : Nat) {depth depth' : Nat} (hle : depth ≤ depth') :
    Extends (value? size depth) (value? size depth') := by
  induction hle with
  | refl => exact fun _ _ hread => hread
  | step _ ih => exact fun _ _ hread => value?_extends_succ size _ (ih hread)

end Decoder

theorem decodeWithin?_mono {depth depth' : Nat} (hle : depth ≤ depth') {cs : Text} {v : Value}
    (h : decodeWithin? depth cs = some v) : decodeWithin? depth' cs = some v := by
  unfold decodeWithin? at h ⊢
  split at h
  next w rest hread =>
    rw [Decoder.value?_extends cs.length hle hread]
    exact h
  · cases h

/-- Decoders with different limits do not contradict one another. -/
theorem decodeWithin?_unique {depth depth' : Nat} {cs : Text} {v w : Value}
    (hv : decodeWithin? depth cs = some v) (hw : decodeWithin? depth' cs = some w) : v = w := by
  have hv' := decodeWithin?_mono (Nat.le_max_left depth depth') hv
  rw [decodeWithin?_mono (Nat.le_max_right depth depth') hw] at hv'
  exact (Option.some.inj hv').symm

/-- What is printed for a kept value is decoded by just those decoders whose limit it keeps to. -/
theorem Value.Kept.decodeWithin?_render {d : Nat} {v : Value} (h : v.Kept d) (depth : Nat) :
    decodeWithin? depth v.render = if v.nesting ≤ depth then some v else none := by
  split
  next hle => exact (h.of_nesting_le hle).spells.decodeWithin?
  next hdeep =>
    refine Option.eq_none_iff_forall_ne_some.mpr fun w hw => hdeep ?_
    obtain rfl := decodeWithin?_unique h.spells.decodeWithin? hw
    exact (kept_of_decodeWithin? hw).nesting_le

end NodeLogs.Json
