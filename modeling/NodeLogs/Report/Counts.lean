/-! Counts of lines: how many were read and how many of them were kept. -/

namespace NodeLogs

structure Counts where
  scanned : Nat := 0
  kept : Nat := 0
  deriving DecidableEq

namespace Counts

def add (a b : Counts) : Counts :=
  ⟨a.scanned + b.scanned, a.kept + b.kept⟩

instance : Add Counts := ⟨add⟩

@[simp] theorem scanned_add (a b : Counts) : (a + b).scanned = a.scanned + b.scanned := rfl

@[simp] theorem kept_add (a b : Counts) : (a + b).kept = a.kept + b.kept := rfl

def sum (counts : List Counts) : Counts :=
  counts.foldl (· + ·) {}

end Counts

end NodeLogs
