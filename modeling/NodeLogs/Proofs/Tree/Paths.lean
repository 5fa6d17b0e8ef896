import NodeLogs.Proofs.Text.Pieces
import NodeLogs.Tree.Lookup

/-! How paths are put together. The names of a path that is put below another are its
own, behind those of the other, and the path of an entry ends with the entry's name. -/

namespace NodeLogs

/-- A name that is a step downwards in a path. -/
structure StepName (name : Name) : Prop where
  ne_nil : name ≠ []
  ne_dot : name ≠ Path.dot
  ne_dots : name ≠ Path.dots
  no_zero : 0 ∉ name
  no_slash : Path.slash ∉ name

/-- A name that an entry can have. -/
structure EntryName (name : Name) : Prop extends StepName name where
  length_le : name.length ≤ nameLimit

instance (name : Name) : Decidable (EntryName name) :=
  decidable_of_iff (name ≠ [] ∧ name ≠ Path.dot ∧ name ≠ Path.dots ∧ 0 ∉ name ∧
      Path.slash ∉ name ∧ name.length ≤ nameLimit)
    ⟨fun ⟨h₁, h₂, h₃, h₄, h₅, h₆⟩ => ⟨⟨h₁, h₂, h₃, h₄, h₅⟩, h₆⟩,
      fun ⟨⟨h₁, h₂, h₃, h₄, h₅⟩, h₆⟩ => ⟨h₁, h₂, h₃, h₄, h₅, h₆⟩⟩

namespace Path

/-- The steps of a path but for the one that a slash at its end stands for. -/
def names (p : Path) : List Name :=
  p.pieces.filter (!·.isEmpty)

theorem steps_eq (p : Path) : p.steps = p.names ++ if p.endsInSlash then [dot] else [] := rfl

theorem mem_names {p : Path} {name : Name} (h : name ∈ p.names) :
    name ≠ [] ∧ slash ∉ name ∧ ∀ b ∈ name, b ∈ p.bytes := by
  obtain ⟨hpiece, hne⟩ := List.mem_filter.mp h
  exact ⟨by simpa using hne, not_mem_of_mem_splitAll hpiece, fun b => mem_of_mem_splitAll hpiece⟩

theorem exists_mem_names {p : Path} {b : UInt8} (h : b ∈ p.bytes) (hb : b ≠ slash) :
    ∃ name ∈ p.names, b ∈ name := by
  obtain ⟨piece, hpiece, hmem⟩ := exists_mem_splitAll h hb
  refine ⟨piece, List.mem_filter.mpr ⟨hpiece, ?_⟩, hmem⟩
  cases piece with
  | nil => cases hmem
  | cons => rfl

theorem filterMap_componentOf? (p : Path) :
    p.pieces.filterMap componentOf? = p.names.filterMap componentOf? := by
  unfold names
  induction p.pieces with
  | nil => rfl
  | cons piece pieces ih =>
    cases piece with
    | nil => simpa [componentOf?] using ih
    | cons b bs => simp [List.filterMap_cons, ih]

/-- A path's file name is its last name, unless that is a dot or two. -/
theorem fileName?_of_names {p : Path} {above : List Name} {name : Name}
    (h : p.names = above ++ [name]) (hdot : name ≠ dot) (hdots : name ≠ dots) :
    p.fileName? = some name := by
  obtain ⟨hne, -⟩ := mem_names (p := p) (h ▸ List.mem_append_right above List.mem_cons_self)
  have hlast : componentOf? name = some (.normal name) := by simp [componentOf?, hne, hdot, hdots]
  unfold fileName? components
  rw [filterMap_componentOf?, h, List.filterMap_append]
  simp [List.getLast?_append, hlast]

theorem endsInSlash_iff {p : Path} : p.endsInSlash ↔ ∃ bs, p.bytes = bs ++ [slash] := by
  unfold endsInSlash
  rw [beq_iff_eq, List.getLast?_eq_some_iff]

/-! ### Joining -/

section Join

variable {p sub : Path} (hp : p.bytes ≠ []) (hsub : sub.isAbsolute = false)
include hsub

theorem bytes_join : (p.join sub).bytes =
    if p.bytes = [] ∨ p.endsInSlash then p.bytes ++ sub.bytes else p.bytes ++ slash :: sub.bytes := by
  unfold join
  rw [hsub]
  by_cases h : p.bytes = [] ∨ p.endsInSlash
  · have : (p.bytes.isEmpty || p.endsInSlash) = true := by simpa using h
    simp [h, this]
  · have : (p.bytes.isEmpty || p.endsInSlash) = false := by simpa using h
    simp [h, this]

theorem mem_bytes_join {b : UInt8} (hb : b ≠ slash) :
    b ∈ (p.join sub).bytes ↔ b ∈ p.bytes ∨ b ∈ sub.bytes := by
  rw [bytes_join hsub]
  split <;> simp [hb]

theorem join_nil (h : p.bytes = []) : p.join sub = sub := by
  unfold join
  simp [hsub, h]

theorem names_join : (p.join sub).names = p.names ++ sub.names := by
  by_cases hp : p.bytes = []
  · have hnames : p.names = [] := by simp [names, pieces, hp]
    rw [join_nil hsub hp, hnames, List.nil_append]
  unfold names pieces
  rw [bytes_join hsub]
  split
  next h =>
    obtain ⟨bs, hbs⟩ := endsInSlash_iff.mp (h.resolve_left hp)
    rw [hbs, List.append_assoc, List.singleton_append, splitAll_append, splitAll_append]
    simp
  next => rw [splitAll_append, List.filter_append]

theorem isAbsolute_join : (p.join sub).isAbsolute = p.isAbsolute := by
  cases hp : p.bytes with
  | nil =>
    rw [join_nil hsub hp, hsub]
    simp [isAbsolute, hp]
  | cons b bs =>
    unfold isAbsolute
    rw [bytes_join hsub]
    split <;> simp [hp]

include hp

theorem join_ne_nil : (p.join sub).bytes ≠ [] := by
  rw [bytes_join hsub]
  split <;> simp [hp]

theorem endsInSlash_join : (p.join sub).endsInSlash = (sub.bytes.isEmpty || sub.endsInSlash) := by
  unfold endsInSlash
  rw [bytes_join hsub]
  cases hs : sub.bytes with
  | nil =>
    split
    next h => simpa [endsInSlash] using h.resolve_left hp
    next => simp
  | cons b bs => split <;> simp [List.getLast?_append, List.getLast?_cons]

end Join

/-! ### Entries -/

section Child

variable {name : Name} (hname : StepName name) (p : Path)
include hname

theorem isAbsolute_name : (⟨name⟩ : Path).isAbsolute = false := by
  obtain ⟨b, bs, hbs⟩ := List.exists_cons_of_ne_nil hname.ne_nil
  have hb : b ≠ slash := fun h => hname.no_slash (by simp [hbs, h])
  simpa [isAbsolute, hbs] using hb

theorem names_name : (⟨name⟩ : Path).names = [name] := by
  unfold names pieces
  rw [splitAll_of_not_mem hname.no_slash]
  simp [hname.ne_nil]

theorem endsInSlash_name : (⟨name⟩ : Path).endsInSlash = false := by
  cases h : (⟨name⟩ : Path).endsInSlash with
  | false => rfl
  | true =>
    obtain ⟨bs, hbs⟩ := endsInSlash_iff.mp h
    exact absurd (by simp [show name = bs ++ [slash] from hbs]) hname.no_slash

theorem names_child : (p.child name).names = p.names ++ [name] := by
  rw [child, names_join (isAbsolute_name hname), names_name hname]

theorem endsInSlash_child : (p.child name).endsInSlash = false := by
  by_cases hp : p.bytes = []
  · rw [child, join_nil (isAbsolute_name hname) hp, endsInSlash_name hname]
  · rw [child, endsInSlash_join hp (isAbsolute_name hname), endsInSlash_name hname]
    simp [hname.ne_nil]

theorem steps_child : (p.child name).steps = p.names ++ [name] := by
  rw [steps_eq, names_child hname, endsInSlash_child hname]
  simp

theorem isAbsolute_child : (p.child name).isAbsolute = p.isAbsolute :=
  isAbsolute_join (isAbsolute_name hname)

theorem zero_mem_child : 0 ∈ (p.child name).bytes ↔ 0 ∈ p.bytes := by
  rw [child, mem_bytes_join (isAbsolute_name hname) (by decide)]
  simp [hname.no_zero]

theorem child_ne_nil : (p.child name).bytes ≠ [] := by
  rw [child, bytes_join (isAbsolute_name hname)]
  split <;> simp [hname.ne_nil]

theorem fileName?_child : (p.child name).fileName? = some name :=
  fileName?_of_names (names_child hname p) hname.ne_dot hname.ne_dots

end Child

/-! ### Paths that go down -/

/-- Names are all there is to a path: it is relative and goes nowhere but down. -/
def GoesDown (p : Path) : Prop :=
  ∀ c ∈ p.components, ∃ name, c = .normal name

instance (p : Path) : Decidable p.GoesDown :=
  decidable_of_iff (∀ c ∈ p.components, c.rank = 3) <| by
    refine forall₂_congr fun c _ => ?_
    cases c <;> simp [Component.rank]

/-- Where a path that goes down leads to, seen from where it begins. -/
def inside (p : Path) : Place :=
  p.names.filter (· ≠ dot)

namespace GoesDown

variable {p : Path} (h : p.GoesDown)
include h

theorem isAbsolute : p.isAbsolute = false := by
  cases habs : p.isAbsolute with
  | false => rfl
  | true =>
    obtain ⟨name, hname⟩ := h .root (by simp [components, habs])
    cases hname

theorem dots_not_mem : dots ∉ p.names := by
  intro hmem
  obtain ⟨name, hname⟩ := h .parent (by
    unfold components
    rw [filterMap_componentOf?]
    exact List.mem_append_right _ (List.mem_filterMap.mpr ⟨dots, hmem, rfl⟩))
  cases hname

end GoesDown

end Path

end NodeLogs
