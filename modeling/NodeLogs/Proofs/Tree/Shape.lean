import NodeLogs.Proofs.Tree.Plain

/-! Trees but for the bytes of their files. To give a file other bytes leaves the shape of
a tree as it is, and plain trees of one shape whose files hold the same are equal. -/

namespace NodeLogs

namespace Keyed

variable {κ ν μ : Type} [BEq κ]

/-- A change that cannot be told by a look at the value cannot be told by a look at all. -/
theorem map_alter_of_lookup [LawfulBEq κ] {g : ν → μ} {f : Option ν → Option ν} {key : κ} {u w : ν}
    {pairs : List (κ × ν)} (h : pairs.lookup key = some u) (hf : f (some u) = some w)
    (hg : g w = g u) : (alter f key pairs).map (Prod.map id g) = pairs.map (Prod.map id g) := by
  induction pairs with
  | nil => cases h
  | cons p pairs ih =>
    obtain ⟨k, v⟩ := p
    unfold alter
    by_cases hk : k = key
    · subst hk
      obtain rfl : v = u := by simpa [lookup_cons] using h
      simp [hf, hg]
    · simp [hk, ih (by simpa [lookup_cons, Ne.symm hk] using h)]

theorem lookup_map (g : ν → μ) (key : κ) (pairs : List (κ × ν)) :
    (pairs.map (Prod.map id g)).lookup key = (pairs.lookup key).map g := by
  induction pairs with
  | nil => rfl
  | cons p pairs ih =>
    obtain ⟨k, v⟩ := p
    rw [List.map_cons, Prod.map_apply, id, lookup_cons, lookup_cons, ih]
    split <;> rfl

end Keyed

namespace Node

mutual

/-- A tree without the bytes of its files. -/
def shape : Node → Node
  | dir es => dir (shapes es)
  | file born _ access => file born [] access
  | n => n

def shapes : List (Name × Node) → List (Name × Node)
  | [] => []
  | (name, n) :: es => (name, n.shape) :: shapes es

end

theorem shapes_eq (es : List (Name × Node)) : shapes es = es.map (Prod.map id shape) := by
  induction es with
  | nil => rfl
  | cons e es ih =>
    obtain ⟨name, n⟩ := e
    unfold shapes
    rw [ih]
    rfl

theorem shape_dir (es : List (Name × Node)) :
    (dir es).shape = dir (es.map (Prod.map id shape)) := by
  conv => lhs; unfold shape
  rw [shapes_eq]

/-- Nodes of one shape are of one kind. -/
theorem kind_eq_of_shape {m n : Node} (h : m.shape = n.shape) : m.kind = n.kind := by
  have hkind (n : Node) : n.kind = n.shape.kind := by
    cases n with
    | dir es => rw [shape_dir]; rfl
    | file | link | device => unfold shape; rfl
  rw [hkind m, hkind n, h]

theorem at?_shape (n : Node) (place : Place) : n.shape.at? place = (n.at? place).map shape := by
  induction place generalizing n with
  | nil => simp
  | cons name place ih =>
    rw [at?_cons, at?_cons]
    cases n with
    | dir es =>
      rw [shape_dir]
      simp only [child?, entries, Keyed.lookup_map]
      cases es.lookup name with
      | none => rfl
      | some c => exact ih c
    | file | link | device => unfold shape; rfl

/-- Trees of one shape have nodes of one shape at each place. -/
theorem exists_of_shape {m n u : Node} (h : m.shape = n.shape) {place : Place}
    (hu : n.at? place = some u) : ∃ v, m.at? place = some v ∧ v.shape = u.shape := by
  have hat := at?_shape m place
  rw [h, at?_shape, hu] at hat
  exact Option.map_eq_some_iff.mp hat.symm

/-- To put a node over one of its shape does not change the shape of the tree. -/
theorem shape_put {root u v : Node} {place : Place} (hu : root.at? place = some u)
    (hshape : v.shape = u.shape) : (root.put place v).shape = root.shape := by
  induction place generalizing root with
  | nil => rw [put_nil]
  | cons name place ih =>
    rw [at?_cons] at hu
    obtain ⟨c, hc, hcu⟩ := Option.bind_eq_some_iff.mp hu
    cases root with
    | dir es =>
      by_cases hplace : place = []
      · subst hplace
        obtain rfl : c = u := by simpa using hcu
        rw [put_singleton, shape_dir, shape_dir]
        exact congrArg dir (Keyed.map_alter_of_lookup hc rfl hshape)
      · rw [put_cons es name hplace, shape_dir, shape_dir]
        exact congrArg dir (Keyed.map_alter_of_lookup hc rfl (ih hcu))
    | file | link | device => rw [put_of_not_dir (by simp)]

/-! ### Equal trees -/

mutual

/-- Plain trees of one shape are equal if their files hold the same. -/
theorem eq_of_shape : ∀ {m n : Node}, m.isPlain → m.shape = n.shape →
    (∀ place, (m.at? place).bind bytes? = (n.at? place).bind bytes?) → m = n
  | dir es, n, hplain, hshape, hbytes => by
    obtain ⟨fs, rfl⟩ := kind_eq_dir.mp (kind_eq_of_shape hshape).symm
    rw [shape_dir, shape_dir, dir.injEq] at hshape
    refine congrArg dir (entries_eq_of_shape (isPlain_dir.mp hplain).1
      (fun e he => ((isPlain_dir.mp hplain).2 e he).2) hshape fun name place => ?_)
    simpa [at?_cons, child?, entries] using hbytes (name :: place)
  | file born bytes access, n, _, hshape, hbytes => by
    obtain ⟨bytes', rfl⟩ := kind_eq_file.mp (kind_eq_of_shape hshape).symm
    obtain rfl : bytes = bytes' := by simpa [bytes?] using hbytes []
    rfl
  | link _, _, _, hshape, _ => (kind_eq_link.mp (kind_eq_of_shape hshape).symm).symm
  | device _, _, _, hshape, _ => (kind_eq_device.mp (kind_eq_of_shape hshape).symm).symm

theorem entries_eq_of_shape : ∀ {es fs : List (Name × Node)}, (es.map Prod.fst).Nodup →
    (∀ e ∈ es, e.2.isPlain) → es.map (Prod.map id shape) = fs.map (Prod.map id shape) →
    (∀ name place, ((es.lookup name).bind (·.at? place)).bind bytes? =
      ((fs.lookup name).bind (·.at? place)).bind bytes?) → es = fs
  | [], fs, _, _, hshape, _ => (List.map_eq_nil_iff.mp hshape.symm).symm
  | (name, n) :: es, fs, hnodup, hplain, hshape, hbytes => by
    obtain ⟨⟨name', m⟩, fs, rfl, hhead, htail⟩ := List.map_eq_cons_iff.mp hshape.symm
    obtain ⟨rfl, hm⟩ : name' = name ∧ m.shape = n.shape := Prod.mk.inj hhead
    rw [List.map_cons, List.nodup_cons] at hnodup
    obtain ⟨hn, hes⟩ := List.forall_mem_cons.mp hplain
    have hkeys : fs.map Prod.fst = es.map Prod.fst := by
      simpa [Function.comp_def] using congrArg (List.map Prod.fst) htail
    have hgone : name' ∉ fs.map Prod.fst := hkeys ▸ hnodup.1
    obtain rfl := eq_of_shape hn hm.symm fun place => by
      simpa [Keyed.lookup_cons] using hbytes name' place
    refine congrArg _ (entries_eq_of_shape hnodup.2 hes htail.symm fun other place => ?_)
    by_cases hother : other = name'
    · rw [hother, Keyed.lookup_eq_none hnodup.1, Keyed.lookup_eq_none hgone]
    · simpa [Keyed.lookup_cons, hother] using hbytes other place

end

end Node

end NodeLogs
