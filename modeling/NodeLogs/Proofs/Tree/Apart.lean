import NodeLogs.Proofs.Tree.Changes

/-! Calls at places apart. A call that depends on nothing but what lies below a place,
and changes nothing else, does not bear on a call below another place that is apart from
it: whichever comes first, both get the same answers and leave the same disk. -/

namespace NodeLogs

/-! ### Places apart -/

/-- Two places that part somewhere on the way. -/
def Place.Apart (p q : Place) : Prop :=
  ∃ above a b, ∃ p' q' : Place, p = above ++ a :: p' ∧ q = above ++ b :: q' ∧ a ≠ b

namespace Place.Apart

variable {p q : Place}

theorem symm (h : Place.Apart p q) : Place.Apart q p := by
  obtain ⟨above, a, b, p', q', hp, hq, hab⟩ := h
  exact ⟨above, b, a, q', p', hq, hp, hab.symm⟩

theorem append (h : Place.Apart p q) (r s : Place) : Place.Apart (p ++ r) (q ++ s) := by
  obtain ⟨above, a, b, p', q', rfl, rfl, hab⟩ := h
  exact ⟨above, a, b, p' ++ r, q' ++ s, by simp, by simp, hab⟩

theorem ne (h : Place.Apart p q) : p ≠ q := by
  obtain ⟨above, a, b, p', q', rfl, rfl, hab⟩ := h
  intro heq
  exact hab (List.cons.inj (List.append_cancel_left heq)).1

/-- What is put below one of them is not seen from the other. -/
theorem at?_put (h : Place.Apart p q) (n v : Node) (r : Place) :
    (n.put (p ++ r) v).at? q = n.at? q := by
  obtain ⟨above, a, b, p', q', rfl, rfl, hab⟩ := h
  rw [List.append_assoc, List.cons_append]
  exact Node.at?_put_parted n v above hab (p' ++ r) q'

theorem put_comm (h : Place.Apart p q) (n v w : Node) {r s : Place} (hr : r ≠ []) (hs : s ≠ []) :
    (n.put (p ++ r) v).put (q ++ s) w = (n.put (q ++ s) w).put (p ++ r) v := by
  obtain ⟨above, a, b, p', q', rfl, rfl, hab⟩ := h
  simp only [List.append_assoc, List.cons_append]
  exact Node.put_comm n v w hab (by simp [hr]) (by simp [hs])

end Place.Apart

/-! ### What devices do next -/

section Queues

variable {α : Type} {place other : Place} {items : List (Place × α)}

/-- The first item for a place. -/
def firstFor? (place : Place) (items : List (Place × α)) : Option α :=
  (takeFor? place items).map Prod.fst

/-- The items without the first for a place. -/
def dropFor (place : Place) (items : List (Place × α)) : List (Place × α) :=
  ((takeFor? place items).map Prod.snd).getD items

theorem takeFor?_eq (place : Place) (items : List (Place × α)) :
    takeFor? place items = (firstFor? place items).map (·, dropFor place items) := by
  unfold firstFor? dropFor
  cases takeFor? place items <;> rfl

theorem takeFor?_cons (item : Place × α) (items : List (Place × α)) :
    takeFor? place (item :: items) = if item.1 = place then some (item.2, items)
      else (takeFor? place items).map fun (a, rest) => (a, item :: rest) := rfl

theorem firstFor?_cons (item : Place × α) (items : List (Place × α)) :
    firstFor? place (item :: items) = if item.1 = place then some item.2 else firstFor? place items := by
  unfold firstFor?
  rw [takeFor?_cons]
  split
  · rfl
  · cases takeFor? place items <;> rfl

theorem dropFor_cons (item : Place × α) (items : List (Place × α)) :
    dropFor place (item :: items) = if item.1 = place then items else item :: dropFor place items := by
  unfold dropFor
  rw [takeFor?_cons]
  split
  · rfl
  · cases takeFor? place items <;> rfl

theorem dropFor_of_none (h : firstFor? place items = none) : dropFor place items = items := by
  unfold dropFor
  rw [Option.map_eq_none_iff.mp h]
  rfl

/-- All items for a place, in their order. -/
def itemsFor (place : Place) (items : List (Place × α)) : List α :=
  (items.filter (·.1 = place)).map Prod.snd

theorem itemsFor_cons (item : Place × α) (items : List (Place × α)) :
    itemsFor place (item :: items) =
      if item.1 = place then item.2 :: itemsFor place items else itemsFor place items := by
  unfold itemsFor
  rw [List.filter_cons]
  by_cases h : item.1 = place <;> simp [h]

theorem firstFor?_eq_head? : firstFor? place items = (itemsFor place items).head? := by
  induction items with
  | nil => rfl
  | cons item items ih =>
    rw [firstFor?_cons, itemsFor_cons, ih]
    split <;> rfl

theorem itemsFor_dropFor_self : itemsFor place (dropFor place items) = (itemsFor place items).tail := by
  induction items with
  | nil => rfl
  | cons item items ih =>
    rw [dropFor_cons, itemsFor_cons]
    by_cases h : item.1 = place
    · rw [if_pos h, if_pos h, List.tail_cons]
    · rw [if_neg h, if_neg h, itemsFor_cons, if_neg h, ih]

theorem itemsFor_dropFor (hne : place ≠ other) :
    itemsFor place (dropFor other items) = itemsFor place items := by
  induction items with
  | nil => rfl
  | cons item items ih =>
    rw [dropFor_cons, itemsFor_cons]
    by_cases hother : item.1 = other
    · have hplace : item.1 ≠ place := fun h => hne (h.symm.trans hother)
      rw [if_pos hother, if_neg hplace]
    · rw [if_neg hother, itemsFor_cons, ih]

/-- Lists with the same items for a place still have the same when each has lost an item. -/
theorem itemsFor_dropFor_congr {items' : List (Place × α)}
    (h : itemsFor place items' = itemsFor place items) (other : Place) :
    itemsFor place (dropFor other items') = itemsFor place (dropFor other items) := by
  by_cases hother : place = other
  · rw [← hother, itemsFor_dropFor_self, itemsFor_dropFor_self, h]
  · rw [itemsFor_dropFor hother, itemsFor_dropFor hother, h]

theorem dropFor_comm : dropFor place (dropFor other items) = dropFor other (dropFor place items) := by
  by_cases hne : place = other
  · rw [hne]
  induction items with
  | nil => rfl
  | cons item items ih =>
    rw [dropFor_cons, dropFor_cons]
    by_cases hplace : item.1 = place
    · have hother : item.1 ≠ other := fun h => hne (hplace.symm.trans h)
      rw [if_pos hplace, if_neg hother, dropFor_cons, if_pos hplace]
    · rw [if_neg hplace, dropFor_cons]
      split
      · rfl
      · rw [dropFor_cons, if_neg hplace, ih]

end Queues

/-! ### Changes -/

/-- What a call changes: a node is put at a place, and what a device does at its next
read or write of a file has been used up. -/
structure Change where
  put : Option (Place × Node) := none
  read : Option Place := none
  written : Option Place := none

namespace Change

def apply (e : Change) (disk : Disk) : Disk where
  root := e.put.elim disk.root fun (place, v) => disk.root.put place v
  cwd := disk.cwd
  removals := disk.removals
  faults :=
    { reads := e.read.elim disk.faults.reads (dropFor · disk.faults.reads)
      writes := e.written.elim disk.faults.writes (dropFor · disk.faults.writes) }

/-- All that is changed lies below a place. -/
structure Below (e : Change) (p : Place) : Prop where
  put : ∀ place v, e.put = some (place, v) → ∃ r, r ≠ [] ∧ place = p ++ r
  read : ∀ place, e.read = some place → ∃ r, place = p ++ r
  written : ∀ place, e.written = some place → ∃ r, place = p ++ r

theorem Below.nothing (p : Place) : ({} : Change).Below p :=
  ⟨by simp, by simp, by simp⟩

theorem Below.ofRead (p r : Place) : ({ read := some (p ++ r) } : Change).Below p where
  put := by simp
  read _ h := ⟨r, (Option.some.inj h).symm⟩
  written := by simp

theorem Below.ofPut (p : Place) {r : Place} (hr : r ≠ []) (v : Node) (written : Bool) :
    ({ put := some (p ++ r, v), written := if written then some (p ++ r) else none } : Change).Below
      p where
  put place w h := ⟨r, hr, (Prod.mk.inj (Option.some.inj h)).1.symm⟩
  read := by simp
  written place h := by
    cases written with
    | false => cases h
    | true => exact ⟨r, (Option.some.inj h).symm⟩

theorem apply_comm {e f : Change} {p q : Place} (hapart : Place.Apart p q) (he : e.Below p)
    (hf : f.Below q) (disk : Disk) : e.apply (f.apply disk) = f.apply (e.apply disk) := by
  unfold apply
  congr 1
  · cases hput : e.put with
    | none => rfl
    | some put =>
      cases hput' : f.put with
      | none => rfl
      | some put' =>
        obtain ⟨r, hr, hplace⟩ := he.put _ _ hput
        obtain ⟨s, hs, hplace'⟩ := hf.put _ _ hput'
        simp only [Option.elim_some, hplace, hplace']
        exact (hapart.put_comm _ _ _ hr hs).symm
  · congr 1
    · cases e.read <;> cases f.read <;> simp [dropFor_comm]
    · cases e.written <;> cases f.written <;> simp [dropFor_comm]

end Change

namespace Disk

/-- From a place downwards, two disks look and behave the same. They have seen as many files
removed, so that files made in the one and in the other are dated alike. -/
structure SameBelow (p : Place) (disk other : Disk) : Prop where
  node : other.root.at? p = disk.root.at? p
  removals : other.removals = disk.removals
  reads : ∀ r, itemsFor (p ++ r) other.faults.reads = itemsFor (p ++ r) disk.faults.reads
  writes : ∀ r, itemsFor (p ++ r) other.faults.writes = itemsFor (p ++ r) disk.faults.writes

theorem SameBelow.refl (p : Place) (disk : Disk) : SameBelow p disk disk :=
  ⟨rfl, rfl, fun _ => rfl, fun _ => rfl⟩

theorem SameBelow.trans {p : Place} {disk later last : Disk} (h : SameBelow p disk later)
    (h' : SameBelow p later last) : SameBelow p disk last :=
  ⟨h'.node.trans h.node, h'.removals.trans h.removals, fun r => (h'.reads r).trans (h.reads r),
    fun r => (h'.writes r).trans (h.writes r)⟩

/-- A change at a place apart is not noticed. -/
theorem SameBelow.apply {p q : Place} (hapart : Place.Apart p q) {e : Change} (he : e.Below q)
    (disk : Disk) : SameBelow p disk (e.apply disk) := by
  have hitems {α : Type} {items : List (Place × α)} (r : Place) {place : Place}
      (hplace : ∃ s, place = q ++ s) :
      itemsFor (p ++ r) (dropFor place items) = itemsFor (p ++ r) items := by
    obtain ⟨s, rfl⟩ := hplace
    exact itemsFor_dropFor (hapart.append r s).ne
  refine ⟨?_, rfl, fun r => ?_, fun r => ?_⟩
  · cases hput : e.put with
    | none => simp [Change.apply, hput]
    | some put =>
      obtain ⟨r, -, hplace⟩ := he.put _ _ hput
      simp only [Change.apply, hput, Option.elim_some, hplace]
      exact hapart.symm.at?_put _ _ r
  · cases hread : e.read with
    | none => simp [Change.apply, hread]
    | some place => simpa [Change.apply, hread] using hitems r (he.read _ hread)
  · cases hwritten : e.written with
    | none => simp [Change.apply, hwritten]
    | some place => simpa [Change.apply, hwritten] using hitems r (he.written _ hwritten)

/-- The same change below the place keeps two disks the same there. -/
theorem SameBelow.applyBoth {p : Place} {disk other : Disk} (h : SameBelow p disk other) {e : Change}
    (he : e.Below p) : SameBelow p (e.apply disk) (e.apply other) := by
  refine ⟨?_, h.removals, fun r => ?_, fun r => ?_⟩
  · cases hput : e.put with
    | none => simpa [Change.apply, hput] using h.node
    | some put =>
      obtain ⟨r, hr, hplace⟩ := he.put _ _ hput
      have hseen := Node.at?_put_append other.root put.2 p [] hr
      have hseen' := Node.at?_put_append disk.root put.2 p [] hr
      rw [List.append_nil, h.node] at hseen
      rw [List.append_nil] at hseen'
      simp only [Change.apply, hput, Option.elim_some, hplace]
      exact hseen.trans hseen'.symm
  · cases hread : e.read with
    | none => simpa [Change.apply, hread] using h.reads r
    | some place => simpa [Change.apply, hread] using itemsFor_dropFor_congr (h.reads r) place
  · cases hwritten : e.written with
    | none => simpa [Change.apply, hwritten] using h.writes r
    | some place => simpa [Change.apply, hwritten] using itemsFor_dropFor_congr (h.writes r) place

end Disk

/-! ### Calls -/

/-- On disks of a kind, a call depends on what lies below a place and changes nothing else. -/
def Call.LocalTo (c : Call) (ok : Disk → Prop) (p : Place) : Prop :=
  ∀ disk, ok disk → ∃ (e : Change) (a : c.Answer), e.Below p ∧
    ∀ other, ok other → disk.SameBelow p other → other.answer c = (e.apply other, a)

theorem Call.LocalTo.mono {c : Call} {ok ok' : Disk → Prop} {p : Place} (h : c.LocalTo ok p)
    (hok : ∀ disk, ok' disk → ok disk) : c.LocalTo ok' p := fun disk hdisk =>
  have ⟨e, a, he, hanswer⟩ := h disk (hok disk hdisk)
  ⟨e, a, he, fun other hother => hanswer other (hok other hother)⟩

/-- In either order, two calls get the same answers and leave the same disk. -/
structure Disk.Independent (disk : Disk) (c d : Call) : Prop where
  first : ((disk.answer d).1.answer c).2 = (disk.answer c).2
  second : ((disk.answer c).1.answer d).2 = (disk.answer d).2
  disk : ((disk.answer c).1.answer d).1 = ((disk.answer d).1.answer c).1

/-- Calls that are local to places apart are independent. -/
theorem Call.LocalTo.independent {c d : Call} {ok : Disk → Prop} {p q : Place}
    (hc : c.LocalTo ok p) (hd : d.LocalTo ok q) (hapart : Place.Apart p q)
    (hok : ∀ disk c, ok disk → ok (disk.answer c).1) {disk : Disk} (hdisk : ok disk) :
    disk.Independent c d := by
  obtain ⟨e, a, he, hanswer⟩ := hc disk hdisk
  obtain ⟨f, b, hf, hanswer'⟩ := hd disk hdisk
  have hfirst := hanswer disk hdisk (.refl _ _)
  have hsecond := hanswer' disk hdisk (.refl _ _)
  have hok' := hok disk c hdisk
  have hok'' := hok disk d hdisk
  have hlater : (e.apply disk).answer d = (f.apply (e.apply disk), b) :=
    hanswer' _ (by simpa [hfirst] using hok') (.apply hapart.symm he disk)
  have hlater' : (f.apply disk).answer c = (e.apply (f.apply disk), a) :=
    hanswer _ (by simpa [hsecond] using hok'') (.apply hapart hf disk)
  refine ⟨?_, ?_, ?_⟩
  · rw [hsecond, hfirst, hlater']
  · rw [hfirst, hsecond, hlater]
  · rw [hfirst, hsecond, hlater, hlater']
    exact (Change.apply_comm hapart he hf disk).symm

end NodeLogs
