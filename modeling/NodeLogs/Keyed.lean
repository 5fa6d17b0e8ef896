/-! Lists of pairs in which keys lead to values: the members of an object, the
entries of a directory, the open files of nodes. The order of the pairs is kept.
A change leaves a pair in its place, and what is new comes last. -/

namespace NodeLogs

namespace Keyed

variable {κ ν : Type} [BEq κ]

/-- Changes, adds or removes the value at a key. -/
def alter (f : Option ν → Option ν) (key : κ) : List (κ × ν) → List (κ × ν)
  | [] => match f none with
    | some v => [(key, v)]
    | none => []
  | (k, v) :: pairs =>
    if k == key then
      match f (some v) with
      | some w => (k, w) :: pairs
      | none => pairs
    else (k, v) :: alter f key pairs

/-- Puts a value at a key, over what is there. -/
def set (key : κ) (v : ν) (pairs : List (κ × ν)) : List (κ × ν) :=
  alter (fun _ => some v) key pairs

theorem lookup_cons (k key : κ) (v : ν) (pairs : List (κ × ν)) :
    ((k, v) :: pairs).lookup key = if key == k then some v else pairs.lookup key := by
  rw [List.lookup_cons]
  cases key == k <;> rfl

variable [LawfulBEq κ]

theorem lookup_eq_none {key : κ} {pairs : List (κ × ν)} (h : key ∉ pairs.map Prod.fst) :
    pairs.lookup key = none :=
  List.lookup_eq_none_iff.mpr fun p hp => by
    simpa using fun hkey : key = p.1 => h (hkey ▸ List.mem_map_of_mem hp)

theorem lookup_of_mem {key : κ} {v : ν} {pairs : List (κ × ν)}
    (hnodup : (pairs.map Prod.fst).Nodup) (hmem : (key, v) ∈ pairs) :
    pairs.lookup key = some v := by
  induction pairs with
  | nil => cases hmem
  | cons p pairs ih =>
    obtain ⟨k, u⟩ := p
    rw [List.map_cons, List.nodup_cons] at hnodup
    rw [lookup_cons]
    rcases List.mem_cons.mp hmem with heq | hrest
    · cases heq
      simp
    · have hk : key ≠ k := by
        rintro rfl
        exact hnodup.1 (List.mem_map.mpr ⟨(key, v), hrest, rfl⟩)
      simpa [hk] using ih hnodup.2 hrest

theorem mem_of_lookup {key : κ} {v : ν} {pairs : List (κ × ν)} (h : pairs.lookup key = some v) :
    (key, v) ∈ pairs := by
  obtain ⟨before, after, rfl, -⟩ := List.lookup_eq_some_iff.mp h
  simp

/-- Where no key comes twice, the order of the pairs makes no difference. -/
theorem lookup_perm {pairs others : List (κ × ν)} (hnodup : (pairs.map Prod.fst).Nodup)
    (h : others.Perm pairs) (key : κ) : others.lookup key = pairs.lookup key := by
  have hnodup' : (others.map Prod.fst).Nodup := (h.map Prod.fst).nodup_iff.mpr hnodup
  apply Option.ext
  intro v
  constructor
  · intro hv
    exact lookup_of_mem hnodup (h.mem_iff.mp (mem_of_lookup hv))
  · intro hv
    exact lookup_of_mem hnodup' (h.mem_iff.mpr (mem_of_lookup hv))

/-- The value at the key is what it was changed to, and no other is touched, if none is
removed. -/
theorem lookup_alter {f : Option ν → Option ν} (hf : ∀ v, (f (some v)).isSome) (key other : κ)
    (pairs : List (κ × ν)) :
    (alter f key pairs).lookup other =
      if other == key then f (pairs.lookup key) else pairs.lookup other := by
  induction pairs with
  | nil => cases hnone : f none <;> simp [alter, hnone, lookup_cons]
  | cons p pairs ih =>
    obtain ⟨k, v⟩ := p
    obtain ⟨w, hw⟩ := Option.isSome_iff_exists.mp (hf v)
    unfold alter
    by_cases hk : k = key
    · subst hk
      by_cases ho : other = k <;> simp [lookup_cons, ho, hw]
    · by_cases ho : other = k <;> by_cases hkey : other = key <;> simp_all [lookup_cons]

/-- The value that was put last counts. -/
theorem lookup_set (key other : κ) (v : ν) (pairs : List (κ × ν)) :
    (set key v pairs).lookup other = if other == key then some v else pairs.lookup other :=
  lookup_alter (fun _ => rfl) key other pairs

/-- A key that is there keeps its place, a new one comes last. -/
theorem keys_set (key : κ) (v : ν) (pairs : List (κ × ν)) :
    (set key v pairs).map Prod.fst =
      if (pairs.map Prod.fst).contains key then pairs.map Prod.fst
      else pairs.map Prod.fst ++ [key] := by
  induction pairs with
  | nil => simp [set, alter]
  | cons p pairs ih =>
    obtain ⟨k, w⟩ := p
    unfold set at ih ⊢
    unfold alter
    by_cases hk : k = key
    · simp [hk]
    · have hne : (key == k) = false := beq_eq_false_iff_ne.mpr (Ne.symm hk)
      simp only [beq_eq_false_iff_ne.mpr hk, List.map_cons, List.contains_cons, hne,
        Bool.false_or, Bool.false_eq_true, if_false, ih]
      split <;> simp

/-- Keys stay apart. -/
theorem nodup_keys_set (key : κ) (v : ν) {pairs : List (κ × ν)}
    (h : (pairs.map Prod.fst).Nodup) : ((set key v pairs).map Prod.fst).Nodup := by
  rw [keys_set]
  split
  · exact h
  next hkey =>
    rw [List.contains_iff_mem] at hkey
    refine List.nodup_append.mpr ⟨h, by simp, ?_⟩
    rintro k hk k' hk' rfl
    rw [List.mem_singleton.mp hk'] at hk
    exact hkey hk

/-- A pair with a new key comes last. -/
theorem set_of_not_mem {key : κ} {pairs : List (κ × ν)} (h : key ∉ pairs.map Prod.fst) (v : ν) :
    set key v pairs = pairs ++ [(key, v)] := by
  induction pairs with
  | nil => rfl
  | cons p pairs ih =>
    obtain ⟨k, w⟩ := p
    rw [List.map_cons, List.mem_cons, not_or] at h
    have hk : (k == key) = false := beq_eq_false_iff_ne.mpr (Ne.symm h.1)
    unfold set at ih ⊢
    unfold alter
    simp [hk, ih h.2]

theorem mem_set {key : κ} {v : ν} {pairs : List (κ × ν)} {e : κ × ν} (h : e ∈ set key v pairs) :
    e = (key, v) ∨ e ∈ pairs := by
  induction pairs with
  | nil => exact .inl (by simpa [set, alter] using h)
  | cons p pairs ih =>
    obtain ⟨k, u⟩ := p
    unfold set at ih h
    unfold alter at h
    split at h
    next hk =>
      obtain rfl := eq_of_beq hk
      rcases List.mem_cons.mp h with rfl | h
      · exact .inl rfl
      · exact .inr (List.mem_cons_of_mem _ h)
    next hk =>
      rcases List.mem_cons.mp h with rfl | h
      · exact .inr List.mem_cons_self
      · exact (ih h).imp_right (List.mem_cons_of_mem _)

end Keyed

end NodeLogs
