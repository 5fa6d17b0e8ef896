import NodeLogs.Proofs.Tree.Plain

/-! The names in directories. On every disk that a system holds the entries of a directory
have proper names, each of its own, also where there are links. Calls put entries beside
others or over them, so that no name ever comes twice. -/

namespace NodeLogs

namespace Node

mutual

/-- In every directory the names are of a kind, and each comes once. -/
def namesAre (P : Name → Bool) : Node → Bool
  | dir es => decide (es.map Prod.fst).Nodup && allNamesAre P es
  | _ => true

def allNamesAre (P : Name → Bool) : List (Name × Node) → Bool
  | [] => true
  | (name, n) :: es => P name && n.namesAre P && allNamesAre P es

end

/-- In every directory the names are proper, and each comes once. -/
def isProper (n : Node) : Bool :=
  n.namesAre fun name => decide (EntryName name)

/-- In every directory each name comes once. -/
def namesOnce (n : Node) : Bool :=
  n.namesAre fun _ => true

variable {P : Name → Bool}

theorem namesAre_dir {es : List (Name × Node)} :
    (dir es).namesAre P ↔ (es.map Prod.fst).Nodup ∧ ∀ e ∈ es, P e.1 ∧ e.2.namesAre P := by
  have hall : allNamesAre P es ↔ ∀ e ∈ es, P e.1 ∧ e.2.namesAre P := by
    induction es with
    | nil => simp [allNamesAre]
    | cons e es ih =>
      obtain ⟨name, n⟩ := e
      unfold allNamesAre
      simp [ih, and_assoc]
  conv => lhs; unfold namesAre
  simp [hall]

theorem isProper_dir {es : List (Name × Node)} :
    (dir es).isProper ↔ (es.map Prod.fst).Nodup ∧ ∀ e ∈ es, EntryName e.1 ∧ e.2.isProper := by
  simp [isProper, namesAre_dir]

/-- Everything below has such names as well. -/
theorem namesAre_at? {root n : Node} (hroot : root.namesAre P) {place : Place}
    (h : root.at? place = some n) : n.namesAre P := by
  induction place generalizing root with
  | nil =>
    cases h
    exact hroot
  | cons name place ih =>
    rw [at?_cons] at h
    obtain ⟨c, hc, hn⟩ := Option.bind_eq_some_iff.mp h
    cases root with
    | dir es => exact ih ((namesAre_dir.mp hroot).2 _ (Keyed.mem_of_lookup hc)).2 hn
    | file | link | device => cases hc

theorem namesAre_put {root v : Node} (hroot : root.namesAre P) (hv : v.namesAre P) {place : Place}
    {name : Name} (hname : P name) : (root.put (place ++ [name]) v).namesAre P := by
  induction place generalizing root with
  | nil =>
    cases root with
    | dir es =>
      obtain ⟨hnodup, hes⟩ := namesAre_dir.mp hroot
      rw [List.nil_append, put_singleton]
      refine namesAre_dir.mpr ⟨Keyed.nodup_keys_set name v hnodup, fun e he => ?_⟩
      rcases Keyed.mem_set he with rfl | he
      · exact ⟨hname, hv⟩
      · exact hes e he
    | file | link | device => rwa [put_of_not_dir (by simp)]
  | cons x place ih =>
    cases root with
    | dir es =>
      obtain ⟨hnodup, hes⟩ := namesAre_dir.mp hroot
      rw [List.cons_append, put_cons es x (by simp)]
      refine namesAre_dir.mpr ⟨by rwa [Keyed.keys_alter_map], fun e he => ?_⟩
      rcases Keyed.mem_alter_map he with he | ⟨u, hu, rfl⟩
      · exact hes e he
      · exact ⟨(hes _ hu).1, ih (hes _ hu).2⟩
    | file | link | device => rwa [put_of_not_dir (by simp)]

theorem namesAre_file (born : Nat) (bytes : Bytes) (access : Access) :
    (file born bytes access).namesAre P := by
  unfold namesAre; rfl

/-- Proper names come once. -/
theorem namesOnce_of_isProper : ∀ {n : Node}, n.isProper → n.namesOnce
  | dir es, h => by
    obtain ⟨hnodup, hes⟩ := isProper_dir.mp h
    refine namesAre_dir.mpr ⟨hnodup, fun e he => ⟨rfl, ?_⟩⟩
    have hmem := List.sizeOf_lt_of_mem he
    have hnode : sizeOf e.2 < sizeOf e := by
      rw [show sizeOf e = 1 + sizeOf e.1 + sizeOf e.2 from Prod.mk.sizeOf_spec e.1 e.2]
      omega
    exact namesOnce_of_isProper (hes e he).2
  | file .., _ | link _, _ | device _, _ => by unfold namesOnce namesAre; rfl
termination_by n => sizeOf n
decreasing_by simp; omega

end Node

namespace Disk

variable {disk : Disk}

/-- No call puts a name beside the same name. -/
theorem answer_namesOnce (h : disk.root.namesOnce) (c : Call) :
    (disk.answer c).1.root.namesOnce := by
  have hroot := disk.answer_alters c
  generalize (disk.answer c).1.root = root at hroot ⊢
  cases hroot with
  | not => exact h
  | make _ hv =>
    refine Node.namesAre_put h ?_ rfl
    rcases hv with rfl | rfl
    · exact Node.namesAre_dir.mpr ⟨List.nodup_nil, by simp⟩
    · exact Node.namesAre_file ..
  | @overwrite place _ _ _ new _ =>
    by_cases hplace : place = []
    · rwa [hplace, Node.put_nil]
    · rw [← List.dropLast_concat_getLast hplace]
      exact Node.namesAre_put h (Node.namesAre_file ..) rfl

/-- No directory has an empty path. -/
theorem ne_nil_of_list (disk : Disk) {p : Path} {es : List (Name × Bool)}
    (hlist : disk.list p = .ok es) : p.bytes ≠ [] := by
  intro hnil
  simp [list, node, locate, Node.locate, hnil] at hlist

/-- What is listed are the names of a directory. -/
theorem list_names {P : Name → Bool} (h : disk.root.namesAre P) {p : Path}
    {es : List (Name × Bool)} (hlist : disk.list p = .ok es) :
    (es.map Prod.fst).Nodup ∧ ∀ e ∈ es, P e.1 := by
  obtain ⟨place, entries, hn, rfl⟩ := list_eq_ok hlist
  obtain ⟨hnodup, hes⟩ := Node.namesAre_dir.mp (Node.namesAre_at? h hn)
  refine ⟨by simpa [List.map_map, Function.comp_def] using hnodup, fun e he => ?_⟩
  obtain ⟨entry, hentry, rfl⟩ := List.mem_map.mp he
  exact (hes entry hentry).1

end Disk

end NodeLogs
