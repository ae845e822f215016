import Mathlib.Data.List.Basic

/-! Tasks and their conflict predicate, after `parallel_determinism/types.rs`. The
`name` and `work` fields of a task are not modelled: no scheduling function reads them. -/
namespace ParallelDeterminism

/-- `type ResourceId = String`; resources are compared by exact string equality. -/
abbrev ResourceId := String

/-- `pub type TaskId = usize`. Ids are only compared and used as keys. -/
abbrev TaskId := Nat

structure Task where
  id : TaskId
  reads : List ResourceId
  writes : List ResourceId
  deriving DecidableEq, Inhabited, Repr

/-- The two early-return loops of `conflicts_with`: own reads against the other's
writes, then own writes against the other's reads and writes. -/
def Task.conflictsWith (self other : Task) : Bool :=
  self.reads.any (fun read => other.writes.contains read) ||
    self.writes.any (fun write => other.reads.contains write || other.writes.contains write)

/-- The conflict relation as the design states it: a shared resource that at least
one of the two tasks writes. -/
def Overlap (a b : Task) : Prop :=
  ∃ r, r ∈ a.reads ∧ r ∈ b.writes ∨ r ∈ a.writes ∧ r ∈ b.reads ∨ r ∈ a.writes ∧ r ∈ b.writes

theorem conflictsWith_iff (a b : Task) : a.conflictsWith b = true ↔ Overlap a b := by
  simp only [Task.conflictsWith,Overlap,Bool.or_eq_true,List.any_eq_true,List.elem_eq_mem,
    decide_eq_true_eq]
  constructor
  · rintro (⟨r,ra,rb⟩ | ⟨r,ra,rb | rb⟩)
    exacts [⟨r,.inl ⟨ra,rb⟩⟩,⟨r,.inr (.inl ⟨ra,rb⟩)⟩,⟨r,.inr (.inr ⟨ra,rb⟩)⟩]
  · rintro ⟨r,⟨ra,rb⟩ | ⟨ra,rb⟩ | ⟨ra,rb⟩⟩
    exacts [.inl ⟨r,ra,rb⟩,.inr ⟨r,ra,.inl rb⟩,.inr ⟨r,ra,.inr rb⟩]

theorem overlap_comm (a b : Task) : Overlap a b ↔ Overlap b a := by
  unfold Overlap
  refine exists_congr fun r => ?_
  tauto

theorem conflictsWith_comm (a b : Task) : a.conflictsWith b = b.conflictsWith a :=
  Bool.eq_iff_iff.mpr ((conflictsWith_iff a b).trans ((overlap_comm a b).trans (conflictsWith_iff b a).symm))

/-- The conflict predicate is exactly a read/write or write/write overlap, whatever the
order and repetitions of the lists; it is symmetric, and tasks that only read never conflict. -/
theorem conflictsWith_spec (a b : Task) :
    (a.conflictsWith b = true ↔ Overlap a b) ∧ a.conflictsWith b = b.conflictsWith a ∧
      (a.writes = [] → b.writes = [] → a.conflictsWith b = false) := by
  refine ⟨conflictsWith_iff a b,conflictsWith_comm a b,fun wa wb => ?_⟩
  simp [Task.conflictsWith,wa,wb]

end ParallelDeterminism
