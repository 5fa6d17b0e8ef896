import NodeLogs.Discovery.FileName
import NodeLogs.Output.Names
import NodeLogs.Proofs.Text.Coding
import NodeLogs.Tree.Path

/-! The outlets of a run and the names of their files. Names are plain ASCII: each
names one outlet, none names a log, and none is more than a single step of a path. -/

namespace NodeLogs

/-- The records that a pair of files takes: those of one node, or all. -/
inductive Group where
  | node (n : Nat)
  | all
  deriving DecidableEq

/-- An output file of a run, by the records it takes and their form. -/
structure Outlet where
  group : Group
  form : Form
  deriving DecidableEq

/-! ### Names of output files -/

/-- The name of a log begins with an `s`. -/
theorem NodeLog.nodeOfText?_eq_none {c : Char} (h : NodeLog.fold c ≠ 's') (cs : Text) :
    NodeLog.nodeOfText? (c :: cs) = none := by
  have hstream : NodeLog.streams.contains ((c :: cs.take 5).map NodeLog.fold) = false := by
    simp [NodeLog.streams, h]
  unfold NodeLog.nodeOfText?
  simp only [List.splitAt_eq, List.take_succ_cons, hstream, Bool.false_and, Bool.false_eq_true,
    if_false]
  split <;> rfl

theorem NodeLog.nodeOfName?_encode (cs : Text) :
    NodeLog.nodeOfName? (Utf8.encode cs) = NodeLog.nodeOfText? cs := by
  rw [NodeLog.nodeOfName?, Utf8.decode?_encode]
  rfl

theorem decimal_injective {m n : Nat} (h : decimal m = decimal n) : m = n := by
  have := congrArg (Nat.ofDigitChars 10 · 0) h
  simpa [decimal, Nat.ofDigitChars_ten_toDigits] using this

theorem isDigit_of_mem_decimal {n : Nat} {c : Char} (h : c ∈ decimal n) : c.isDigit :=
  Nat.isDigit_of_mem_toDigits (by decide) (by decide) h

theorem Form.ending_eq (form : Form) :
    form.ending = '.' :: match form with
      | json => ['j', 's', 'o', 'n', 'l']
      | plain => ['l', 'o', 'g'] := by
  cases form <;> rfl

/-- The digits of a name end at its dot. -/
theorem span_decimal (n : Nat) (form : Form) :
    (decimal n ++ form.ending).takeWhile Char.isDigit = decimal n ∧
      (decimal n ++ form.ending).dropWhile Char.isDigit = form.ending := by
  have hdigits : ∀ c ∈ decimal n, c.isDigit = true := fun c => isDigit_of_mem_decimal
  have hdot : Char.isDigit '.' = false := by decide
  rw [List.takeWhile_append_of_pos hdigits, List.dropWhile_append_of_pos hdigits, form.ending_eq,
    List.takeWhile_cons, List.dropWhile_cons, hdot]
  simp

namespace Outlet

def fileName : Outlet → Text
  | ⟨.node n, form⟩ => nodeFileName n form
  | ⟨.all, form⟩ => combinedFileName form

def path (dir : Path) (x : Outlet) : Path :=
  dir.join (Path.ofText x.fileName)

theorem path_node (dir : Path) (n : Nat) (form : Form) :
    dir.join (Path.ofText (nodeFileName n form)) = path dir ⟨.node n, form⟩ := rfl

theorem path_all (dir : Path) (form : Form) :
    dir.join (Path.ofText (combinedFileName form)) = path dir ⟨.all, form⟩ := rfl

theorem fileName_head (x : Outlet) :
    x.fileName.head? = some (match x.group with | .node _ => 'n' | .all => 'a') := by
  obtain ⟨_ | _, _⟩ := x <;> rfl

theorem fileName_injective {x y : Outlet} (h : x.fileName = y.fileName) : x = y := by
  have hending {f g : Form} (h : f.ending = g.ending) : f = g := by
    rw [f.ending_eq, g.ending_eq] at h
    cases f <;> cases g <;> simp at h ⊢
  have hhead := congrArg List.head? h
  rw [fileName_head, fileName_head] at hhead
  obtain ⟨g, f⟩ := x
  obtain ⟨g', f'⟩ := y
  cases g with
  | node m =>
    cases g' with
    | node n =>
      have hrest : decimal m ++ f.ending = decimal n ++ f'.ending := by
        have h : "node".toList ++ decimal m ++ f.ending = "node".toList ++ decimal n ++ f'.ending := h
        rw [List.append_assoc, List.append_assoc] at h
        exact List.append_cancel_left h
      obtain ⟨hm, hf⟩ := span_decimal m f
      obtain ⟨hn, hf'⟩ := span_decimal n f'
      rw [hrest] at hm hf
      rw [decimal_injective (hm.symm.trans hn), hending (hf.symm.trans hf')]
    | all => exact absurd hhead (by simp)
  | all =>
    cases g' with
    | node n => exact absurd hhead (by simp)
    | all => rw [hending (List.append_cancel_left h)]

/-- A character is ASCII, and no path has a meaning of its own for it. -/
def isNameChar (c : Char) : Bool :=
  decide (0 < c.toNat ∧ c.toNat ≠ 0x2F ∧ c.toNat < 0x80)

theorem isNameChar_of_isDigit {c : Char} (h : c.isDigit) : isNameChar c := by
  simp only [Char.isDigit, Bool.and_eq_true, decide_eq_true_eq, UInt32.le_iff_toNat_le] at h
  have hval : c.toNat = c.val.toNat := rfl
  simp at h
  simp only [isNameChar, decide_eq_true_eq]
  omega

/-- The characters of a name: letters, digits, underscores and dots. -/
theorem fileName_chars (x : Outlet) :
    ∀ c ∈ x.fileName, 0 < c.toNat ∧ c.toNat ≠ 0x2F ∧ c.toNat < 0x80 := by
  have hending (form : Form) : form.ending.all isNameChar := by cases form <;> decide
  have hnode : "node".toList.all isNameChar := by decide
  have hall : "all_nodes".toList.all isNameChar := by decide
  intro c hc
  refine of_decide_eq_true (show isNameChar c from ?_)
  obtain ⟨_ | _, form⟩ := x
  · rcases List.mem_append.mp hc with hc | hc
    · rcases List.mem_append.mp hc with hc | hc
      · exact List.all_eq_true.mp hnode c hc
      · exact isNameChar_of_isDigit (isDigit_of_mem_decimal hc)
    · exact List.all_eq_true.mp (hending form) c hc
  · rcases List.mem_append.mp hc with hc | hc
    · exact List.all_eq_true.mp hall c hc
    · exact List.all_eq_true.mp (hending form) c hc

/-- The name of an outlet's file in its directory. -/
def name (x : Outlet) : Name :=
  Utf8.encode x.fileName

theorem decodeLossy_name (x : Outlet) : Utf8.decodeLossy x.name = x.fileName :=
  Utf8.decodeLossy_encode _

theorem name_injective {x y : Outlet} (h : x.name = y.name) : x = y := by
  refine fileName_injective ?_
  rw [← x.decodeLossy_name, ← y.decodeLossy_name, h]

theorem not_mem_name {b : UInt8} (hb : b = 0 ∨ b = Path.slash) (x : Outlet) : b ∉ x.name := by
  intro hmem
  have hchar : ∃ c ∈ x.fileName, c.toNat = b.toNat := by
    rcases hb with rfl | rfl <;> exact (Utf8.mem_encode (by decide)).mp hmem
  obtain ⟨c, hc, heq⟩ := hchar
  obtain ⟨hpos, hslash, -⟩ := x.fileName_chars c hc
  rcases hb with rfl | rfl
  · exact Nat.ne_of_gt hpos heq
  · exact hslash heq

theorem name_head (x : Outlet) :
    x.name.head? = some (match x.group with | .node _ => 0x6E | .all => 0x61) := by
  obtain ⟨_ | _, _⟩ := x <;> rfl

/-- Names are steps downwards. -/
theorem name_ne (x : Outlet) : x.name ≠ [] ∧ x.name ≠ Path.dot ∧ x.name ≠ Path.dots := by
  have hhead := x.name_head
  refine ⟨?_, ?_, ?_⟩ <;> intro h <;> rw [h] at hhead <;> cases hg : x.group <;>
    simp [hg, Path.dot, Path.dots] at hhead

/-- No output file has the name of a log. -/
theorem nodeOfName?_name (x : Outlet) : NodeLog.nodeOfName? x.name = none := by
  obtain ⟨c, cs, hcs, hc⟩ : ∃ c cs, x.fileName = c :: cs ∧ NodeLog.fold c ≠ 's' := by
    obtain ⟨_ | _, _⟩ := x
    · exact ⟨'n', _, rfl, by decide⟩
    · exact ⟨'a', _, rfl, by decide⟩
  rw [name, hcs, NodeLog.nodeOfName?_encode]
  exact NodeLog.nodeOfText?_eq_none hc cs

theorem path_injective {dir : Path} {x y : Outlet} (h : x.path dir = y.path dir) : x = y := by
  have hrelative (x : Outlet) : (Path.ofText x.fileName).isAbsolute = false := by
    have hhead := x.name_head
    unfold name at hhead
    unfold Path.isAbsolute Path.ofText
    rw [hhead]
    cases x.group <;> rfl
  refine name_injective ?_
  unfold path Path.join at h
  rw [hrelative, hrelative] at h
  simp only [Bool.false_eq_true, if_false] at h
  split at h
  · exact List.append_cancel_left (congrArg Path.bytes h)
  · exact (List.cons.inj (List.append_cancel_left (congrArg Path.bytes h))).2

end Outlet

end NodeLogs
