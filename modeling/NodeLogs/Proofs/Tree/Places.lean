import NodeLogs.Tree.Disk

/-! Nodes and their places. A change at one place is seen at that place and below
it, and by the directories on the way to it; every other place keeps its node, and
changes at places apart from each other can be made in any order. -/

namespace NodeLogs

namespace Keyed

variable {κ ν : Type} [BEq κ] [LawfulBEq κ]

theorem lookup_alter_map (g : ν → ν) (key other : κ) (pairs : List (κ × ν)) :
    (alter (Option.map g) key pairs).lookup other =
      if other == key then (pairs.lookup key).map g else pairs.lookup other :=
  lookup_alter (fun _ => rfl) key other pairs

theorem keys_alter_map (g : ν → ν) (key : κ) (pairs : List (κ × ν)) :
    (alter (Option.map g) key pairs).map Prod.fst = pairs.map Prod.fst := by
  induction pairs with
  | nil => rfl
  | cons p pairs ih =>
    obtain ⟨k, v⟩ := p
    unfold alter
    by_cases hk : k = key
    · simp [hk]
    · simp [hk, ih]

theorem mem_alter_map {g : ν → ν} {key : κ} {pairs : List (κ × ν)} {e : κ × ν}
    (h : e ∈ alter (Option.map g) key pairs) : e ∈ pairs ∨ ∃ u, (key, u) ∈ pairs ∧ e = (key, g u) := by
  induction pairs with
  | nil => cases h
  | cons p pairs ih =>
    obtain ⟨k, u⟩ := p
    unfold alter at h
    split at h
    next hk =>
      obtain rfl := eq_of_beq hk
      rcases List.mem_cons.mp h with rfl | h
      · exact .inr ⟨u, List.mem_cons_self, rfl⟩
      · exact .inl (List.mem_cons_of_mem _ h)
    next hk =>
      rcases List.mem_cons.mp h with rfl | h
      · exact .inl List.mem_cons_self
      · rcases ih h with h | ⟨u', hu', rfl⟩
        · exact .inl (List.mem_cons_of_mem _ h)
        · exact .inr ⟨u', List.mem_cons_of_mem _ hu', rfl⟩

/-- Changes to the values at two keys can be made in any order. -/
theorem alter_map_comm (f g : ν → ν) {k l : κ} (hne : k ≠ l) (pairs : List (κ × ν)) :
    alter (Option.map f) k (alter (Option.map g) l pairs) =
      alter (Option.map g) l (alter (Option.map f) k pairs) := by
  induction pairs with
  | nil => rfl
  | cons p pairs ih =>
    obtain ⟨m, v⟩ := p
    by_cases hk : m = k
    · subst hk
      simp [alter, hne]
    · by_cases hl : m = l
      · subst hl
        simp [alter, hk]
      · simp [alter, hk, hl, ih]

end Keyed

namespace Node

/-! ### Looking along a place -/

@[simp] theorem at?_nil (n : Node) : n.at? [] = some n := by
  unfold at?; rfl

theorem at?_cons (n : Node) (name : Name) (place : Place) :
    n.at? (name :: place) = (n.child? name).bind (·.at? place) := by
  conv => lhs; unfold at?
  cases n.child? name <;> rfl

theorem at?_append (n : Node) (p q : Place) : n.at? (p ++ q) = (n.at? p).bind (·.at? q) := by
  induction p generalizing n with
  | nil => simp
  | cons name p ih =>
    rw [List.cons_append, at?_cons, at?_cons]
    cases n.child? name with
    | none => rfl
    | some c => exact ih c

/-- A node that is no directory has nothing below it. -/
theorem at?_cons_eq_none {n : Node} (h : ∀ es, n ≠ dir es) (name : Name) (place : Place) :
    n.at? (name :: place) = none := by
  rw [at?_cons]
  cases n with
  | dir es => exact absurd rfl (h es)
  | file | link | device => rfl

/-- A directory stands at the place. -/
def HasDir (n : Node) (place : Place) : Prop :=
  ∃ es, n.at? place = some (dir es)

instance (n : Node) (place : Place) : Decidable (n.HasDir place) :=
  decidable_of_iff ((n.at? place).any isDir) <| by
    unfold HasDir
    cases h : n.at? place with
    | none => simp
    | some m => cases m <;> simp [isDir]

/-- What lies above something is a directory. -/
theorem HasDir.of_append {n m : Node} {p q : Place} (hq : q ≠ []) (h : n.at? (p ++ q) = some m) :
    n.HasDir p := by
  obtain ⟨name, q, rfl⟩ := List.exists_cons_of_ne_nil hq
  rw [at?_append] at h
  obtain ⟨c, hc, hm⟩ := Option.bind_eq_some_iff.mp h
  cases c with
  | dir es => exact ⟨es, hc⟩
  | file | link | device => rw [at?_cons_eq_none (by simp)] at hm; cases hm

theorem HasDir.left {n : Node} {p q : Place} (h : n.HasDir (p ++ q)) : n.HasDir p := by
  obtain ⟨es, h⟩ := h
  by_cases hq : q = []
  · exact ⟨es, by simpa [hq] using h⟩
  · exact .of_append hq h

theorem HasDir.dropLast {n : Node} {p : Place} (h : n.HasDir p) : n.HasDir p.dropLast := by
  by_cases hp : p = []
  · simpa [hp] using h
  · rw [← List.dropLast_concat_getLast hp] at h
    exact h.left

/-! ### Putting a node at a place -/

theorem put_cons (es : List (Name × Node)) (name : Name) {q : Place} (hq : q ≠ []) (v : Node) :
    (dir es).put (name :: q) v = dir (Keyed.alter (Option.map (·.put q v)) name es) := by
  obtain ⟨x, q, rfl⟩ := List.exists_cons_of_ne_nil hq
  conv => lhs; unfold put alter
  rfl

theorem put_singleton (es : List (Name × Node)) (name : Name) (v : Node) :
    (dir es).put [name] v = dir (Keyed.set name v es) := by
  unfold put alter; rfl

theorem put_of_not_dir {n : Node} (h : ∀ es, n ≠ dir es) (place : Place) (v : Node) :
    n.put place v = n := by
  unfold put alter
  cases n with
  | dir es => exact absurd rfl (h es)
  | file | link | device => rcases place with _ | ⟨x, _ | ⟨y, place⟩⟩ <;> rfl

theorem put_nil (n v : Node) : n.put [] v = n := by
  unfold put alter; cases n <;> rfl

/-- A directory stays one. -/
theorem put_dir (es : List (Name × Node)) (place : Place) (v : Node) :
    ∃ es', (dir es).put place v = dir es' := by
  rcases place with _ | ⟨x, _ | ⟨y, place⟩⟩
  · exact ⟨es, put_nil _ _⟩
  · exact ⟨_, put_singleton es x v⟩
  · exact ⟨_, put_cons es x (by simp) v⟩

/-- What is put below `p` is seen from `p` as put there. -/
theorem at?_put_append (n v : Node) (p r : Place) {q : Place} (hq : q ≠ []) :
    (n.put (p ++ q) v).at? (p ++ r) = (n.at? p).bind fun m => (m.put q v).at? r := by
  induction p generalizing n with
  | nil => simp
  | cons name p ih =>
    cases n with
    | dir es =>
      rw [List.cons_append, List.cons_append, put_cons es name (by simp [hq]), at?_cons, at?_cons]
      simp only [child?, entries, Keyed.lookup_alter_map, beq_self_eq_true, if_true]
      cases es.lookup name with
      | none => rfl
      | some c => exact ih c
    | file | link | device =>
      rw [put_of_not_dir (by simp), List.cons_append, at?_cons_eq_none (by simp),
        at?_cons_eq_none (by simp)]
      rfl

/-- What was put is there. -/
theorem at?_put_self {n : Node} {p : Place} (h : n.HasDir p) (name : Name) (v : Node) (r : Place) :
    (n.put (p ++ [name]) v).at? (p ++ name :: r) = v.at? r := by
  obtain ⟨es, h⟩ := h
  rw [at?_put_append n v p (name :: r) (by simp), h, Option.bind_some, put_singleton, at?_cons]
  simp [child?, entries, Keyed.lookup_set]

/-- A file's place holds what is put over it. -/
theorem at?_put_over {n m : Node} {p : Place} (htop : n.HasDir []) (h : n.at? p = some m)
    (hm : ∀ es, m ≠ dir es) (v : Node) : (n.put p v).at? p = some v := by
  have hp : p ≠ [] := by
    rintro rfl
    obtain ⟨es, hes⟩ := htop
    rw [hes] at h
    cases h
    exact hm es rfl
  rw [← List.dropLast_concat_getLast hp] at h ⊢
  simpa using at?_put_self (.of_append (by simp) h) _ v []

/-- Two places: one leads to the other, or they part somewhere. -/
theorem place_cases (p q : Place) :
    p <+: q ∨ q <+: p ∨ ∃ c a b p' q', p = c ++ a :: p' ∧ q = c ++ b :: q' ∧ a ≠ b := by
  induction p generalizing q with
  | nil => exact .inl (List.nil_prefix)
  | cons a p ih =>
    cases q with
    | nil => exact .inr (.inl List.nil_prefix)
    | cons b q =>
      by_cases hab : a = b
      · subst hab
        rcases ih q with h | h | ⟨c, x, y, p', q', hp, hq, hxy⟩
        · exact .inl (by simpa using h)
        · exact .inr (.inl (by simpa using h))
        · exact .inr (.inr ⟨a :: c, x, y, p', q', by simp [hp], by simp [hq], hxy⟩)
      · exact .inr (.inr ⟨[], a, b, p, q, rfl, rfl, hab⟩)

theorem at?_put_parted (n v : Node) (c : Place) {a b : Name} (hab : a ≠ b) (p q : Place) :
    (n.put (c ++ a :: p) v).at? (c ++ b :: q) = n.at? (c ++ b :: q) := by
  rw [at?_put_append n v c _ (by simp), at?_append]
  congr 1
  funext m
  cases m with
  | dir es =>
    by_cases hp : p = []
    · subst hp
      rw [put_singleton, at?_cons, at?_cons]
      simp [child?, entries, Keyed.lookup_set, hab.symm]
    · rw [put_cons es a hp, at?_cons, at?_cons]
      simp [child?, entries, Keyed.lookup_alter_map, hab.symm]
  | file | link | device => rw [put_of_not_dir (by simp)]

/-- A place that neither leads to the change nor lies below it keeps its node. -/
theorem at?_put_other (n v : Node) {p q : Place} (hpq : ¬ p <+: q) (hqp : ¬ q <+: p) :
    (n.put p v).at? q = n.at? q := by
  rcases place_cases p q with h | h | ⟨c, a, b, p', q', rfl, rfl, hab⟩
  · exact absurd h hpq
  · exact absurd h hqp
  · exact at?_put_parted n v c hab p' q'

/-- A directory on the way to the change stays one, and no other node comes to stand there. -/
theorem at?_put_above (n v : Node) {p q : Place} (hq : q ≠ []) :
    (n.put (p ++ q) v).at? p = (n.at? p).map (·.put q v) := by
  have h := at?_put_append n v p [] hq
  simpa [Option.map_eq_bind, Function.comp_def] using h

/-- Changes at places apart from each other can be made in any order. -/
theorem put_comm (n v w : Node) {c : Place} {a b : Name} (hab : a ≠ b) {p q : Place}
    (hp : p ≠ []) (hq : q ≠ []) :
    (n.put (c ++ a :: p) v).put (c ++ b :: q) w = (n.put (c ++ b :: q) w).put (c ++ a :: p) v := by
  induction c generalizing n with
  | nil =>
    cases n with
    | dir es =>
      simp only [List.nil_append]
      rw [put_cons es a hp, put_cons es b hq, put_cons _ b hq, put_cons _ a hp,
        Keyed.alter_map_comm _ _ hab]
    | file | link | device => simp only [put_of_not_dir (n := file ..) (by simp),
        put_of_not_dir (n := link ..) (by simp), put_of_not_dir (n := device ..) (by simp)]
  | cons x c ih =>
    cases n with
    | dir es =>
      simp only [List.cons_append]
      rw [put_cons es x (by simp), put_cons es x (by simp), put_cons _ x (by simp),
        put_cons _ x (by simp)]
      congr 1
      induction es with
      | nil => rfl
      | cons e es ihes =>
        obtain ⟨k, m⟩ := e
        by_cases hk : k = x
        · simp [Keyed.alter, hk, ih m]
        · simp [Keyed.alter, hk, ihes]
    | file | link | device => simp only [put_of_not_dir (n := file ..) (by simp),
        put_of_not_dir (n := link ..) (by simp), put_of_not_dir (n := device ..) (by simp)]

end Node

end NodeLogs
