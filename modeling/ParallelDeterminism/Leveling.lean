import ParallelDeterminism.DepGraph
import Mathlib.Data.Finset.Card
import Mathlib.Data.Finset.Lattice.Fold
import Mathlib.Data.Nat.Lattice

/-! `execution_levels` as a state machine. The state is its three locals, one `step` is
one iteration of its `while` loop. The order in which a `HashSet` is iterated is not
fixed by the program, so it is a parameter: any duplicate-free enumeration. -/
namespace ParallelDeterminism

/-- How a run of `execution_levels` aborts. -/
inductive Panic where
  /-- `self.dependencies[&task_id]` on an id the map has no entry for: the `Index` of
  `HashMap` panics with the fixed message `no entry found for key`, which names no key. -/
  | missingKey
  /-- `panic!` with its message. -/
  | explicit (message : String)
  deriving DecidableEq, Repr

/-- The iteration order of a `HashSet<TaskId>`: each member once. Within one run the
sets iterated never repeat, so a function of the set loses no generality. -/
structure Enumeration where
  visit : Finset TaskId → List TaskId
  nodup : ∀ s, (visit s).Nodup
  mem : ∀ s t, t ∈ visit s ↔ t ∈ s

/-- Ascending order: one admissible iteration order, which lets the model run. -/
def Enumeration.ascending : Enumeration where
  visit s := (List.range (s.sup id + 1)).filter (· ∈ s)
  nodup _ := (List.nodup_range _).filter _
  mem s t := by
    simp only [List.mem_filter,List.mem_range,decide_eq_true_eq,and_iff_right_iff_imp]
    exact fun member => Nat.lt_succ_of_le (show id t ≤ s.sup id from Finset.le_sup member)

/-- The locals of `execution_levels` at the head of its `while` loop. -/
structure Leveling where
  levels : List (List TaskId)
  completed : Finset TaskId
  remaining : Finset TaskId

/-- The state after an iteration that collected `level`. -/
def Leveling.push (s : Leveling) (level : List TaskId) : Leveling :=
  ⟨s.levels ++ [level],s.completed ∪ level.toFinset,s.remaining \ level.toFinset⟩

@[simp] theorem Leveling.push_levels (s : Leveling) (level : List TaskId) :
    (s.push level).levels = s.levels ++ [level] := rfl
@[simp] theorem Leveling.push_completed (s : Leveling) (level : List TaskId) :
    (s.push level).completed = s.completed ∪ level.toFinset := rfl
@[simp] theorem Leveling.push_remaining (s : Leveling) (level : List TaskId) :
    (s.push level).remaining = s.remaining \ level.toFinset := rfl

namespace DependencyGraph

variable (g : DependencyGraph) (e : Enumeration)

/-- `self.tasks.iter().map(|t| t.id).collect()`. -/
def taskIds : Finset TaskId := (g.tasks.map (·.id)).toFinset

def start : Leveling := ⟨[],∅,g.taskIds⟩

/-- The body of the collecting `for` loop, for one `task_id`. -/
def collect (completed : Finset TaskId) (currentLevel : List TaskId) (taskId : TaskId) :
    Except Panic (List TaskId) :=
  match g.dependencies taskId with
  | none => .error .missingKey
  | some deps => .ok (if deps ⊆ completed then currentLevel ++ [taskId] else currentLevel)

/-- The collecting `for` loop over `remaining`, visited in the order `visit`. -/
def currentLevel (completed : Finset TaskId) (visit : List TaskId) : Except Panic (List TaskId) :=
  visit.foldlM (g.collect completed) []

/-- The marking `for` loop: the level's ids move from `remaining` to `completed`. -/
def markCompleted (currentLevel : List TaskId) (completed remaining : Finset TaskId) :
    Finset TaskId × Finset TaskId :=
  currentLevel.foldl (fun (completed, remaining) taskId =>
    (insert taskId completed, remaining.erase taskId)) (completed, remaining)

/-- One iteration of the `while` loop. -/
def step (s : Leveling) : Except Panic Leveling := do
  let currentLevel ← g.currentLevel s.completed (e.visit s.remaining)
  if currentLevel.isEmpty then throw (.explicit "Circular dependency detected!")
  let (completed, remaining) := markCompleted currentLevel s.completed s.remaining
  pure ⟨s.levels ++ [currentLevel],completed,remaining⟩

/-- A task whose entry exists and whose dependencies are all completed. -/
def ready (completed : Finset TaskId) (t : TaskId) : Bool :=
  match g.dependencies t with
  | some deps => decide (deps ⊆ completed)
  | none => false

theorem ready_eq_true {completed : Finset TaskId} {t : TaskId} :
    g.ready completed t = true ↔ ∃ deps, g.dependencies t = some deps ∧ deps ⊆ completed := by
  unfold ready
  split <;> simp_all

theorem currentLevel_foldlM (completed : Finset TaskId) (visit acc : List TaskId) :
    visit.foldlM (g.collect completed) acc =
      match visit.find? (fun t => (g.dependencies t).isNone) with
      | some _ => .error .missingKey
      | none => .ok (acc ++ visit.filter (g.ready completed)) := by
  induction visit generalizing acc with
  | nil => simp; rfl
  | cons t visit ih =>
    rw [List.foldlM_cons,List.find?_cons,List.filter_cons]
    cases entry : g.dependencies t with
    | none => simp [collect,entry]; rfl
    | some deps =>
      have body : g.collect completed acc t = .ok (if deps ⊆ completed then acc ++ [t] else acc) := by
        simp [collect,entry]
      rw [body]
      show visit.foldlM (g.collect completed) _ = _
      rw [ih]
      by_cases sub : deps ⊆ completed <;> simp [ready,entry,sub]

theorem currentLevel_eq (completed : Finset TaskId) (visit : List TaskId) :
    g.currentLevel completed visit =
      match visit.find? (fun t => (g.dependencies t).isNone) with
      | some _ => .error .missingKey
      | none => .ok (visit.filter (g.ready completed)) :=
  currentLevel_foldlM g completed visit []

theorem currentLevel_eq_ok {completed : Finset TaskId} {visit level : List TaskId} :
    g.currentLevel completed visit = .ok level ↔
      (∀ t ∈ visit, (g.dependencies t).isSome) ∧ level = visit.filter (g.ready completed) := by
  rw [currentLevel_eq]
  cases found : visit.find? (fun t => (g.dependencies t).isNone) with
  | some t =>
    have missing := List.find?_some found
    refine ⟨fun failed => (by cases failed),fun ⟨entries,_⟩ => ?_⟩
    have present := entries t (List.mem_of_find?_eq_some found)
    simp_all
  | none =>
    have entries := List.find?_eq_none.mp found
    refine ⟨fun collected => ⟨fun t member => ?_,by cases collected; rfl⟩,fun ⟨_,h⟩ => by rw [h]⟩
    simpa [Option.isSome_iff_ne_none] using entries t member

theorem currentLevel_eq_error {completed : Finset TaskId} {visit : List TaskId} {p : Panic}
    (failed : g.currentLevel completed visit = .error p) :
    (∃ t ∈ visit, g.dependencies t = none) ∧ p = .missingKey := by
  rw [currentLevel_eq] at failed
  cases found : visit.find? (fun t => (g.dependencies t).isNone) with
  | some t =>
    rw [found] at failed
    have missing := List.find?_some found
    exact ⟨⟨t,List.mem_of_find?_eq_some found,by simpa using missing⟩,by cases failed; rfl⟩
  | none => rw [found] at failed; cases failed

theorem markCompleted_eq (level : List TaskId) (completed remaining : Finset TaskId) :
    markCompleted level completed remaining = (completed ∪ level.toFinset,remaining \ level.toFinset) := by
  induction level generalizing completed remaining with
  | nil => simp [markCompleted]
  | cons t level ih =>
    show markCompleted level (insert t completed) (remaining.erase t) = _
    rw [ih]
    simp [Finset.sdiff_insert,Finset.erase_sdiff_comm]

/-- The level an iteration collects when no entry is missing. -/
def readyLevel (s : Leveling) : List TaskId := (e.visit s.remaining).filter (g.ready s.completed)

theorem step_eq (s : Leveling) :
    g.step e s = (g.currentLevel s.completed (e.visit s.remaining)).bind fun level =>
      if level = [] then .error (.explicit "Circular dependency detected!") else .ok (s.push level) := by
  unfold step
  cases g.currentLevel s.completed (e.visit s.remaining) with
  | error p => rfl
  | ok level => by_cases empty : level = [] <;> simp [empty,markCompleted_eq] <;> rfl

/-- What one iteration can do when it does not panic. -/
theorem step_eq_ok {s next : Leveling} :
    g.step e s = .ok next ↔
      (∀ t ∈ s.remaining, (g.dependencies t).isSome) ∧ g.readyLevel e s ≠ [] ∧
        next = s.push (g.readyLevel e s) := by
  rw [step_eq]
  cases collected : g.currentLevel s.completed (e.visit s.remaining) with
  | error p =>
    obtain ⟨⟨t,member,missing⟩,-⟩ := g.currentLevel_eq_error collected
    refine ⟨fun stepped => (by cases stepped),fun ⟨entries,_⟩ => ?_⟩
    have present := entries t ((e.mem _ t).mp member)
    simp_all
  | ok level =>
    obtain ⟨entries,rfl⟩ := g.currentLevel_eq_ok.mp collected
    have entries' : ∀ t ∈ s.remaining, (g.dependencies t).isSome := fun t member =>
      entries t ((e.mem _ t).mpr member)
    show (if _ = [] then _ else _) = _ ↔ _
    by_cases empty : (e.visit s.remaining).filter (g.ready s.completed) = []
    · simp only [empty,if_true,readyLevel]
      exact ⟨fun stepped => (by cases stepped),fun ⟨_,nonempty,_⟩ => absurd rfl nonempty⟩
    · simp only [empty,if_false,readyLevel,Except.ok.injEq,ne_eq,not_false_eq_true,true_and]
      exact ⟨fun pushed => ⟨entries',pushed.symm⟩,fun ⟨_,pushed⟩ => pushed.symm⟩

/-- The two panics of one iteration. -/
theorem step_eq_error {s : Leveling} {p : Panic} (failed : g.step e s = .error p) :
    ((∃ t ∈ s.remaining, g.dependencies t = none) ∧ p = .missingKey) ∨
      (g.readyLevel e s = [] ∧ p = .explicit "Circular dependency detected!") := by
  rw [step_eq] at failed
  cases collected : g.currentLevel s.completed (e.visit s.remaining) with
  | error q =>
    rw [collected] at failed
    obtain ⟨⟨t,member,missing⟩,rfl⟩ := g.currentLevel_eq_error collected
    exact .inl ⟨⟨t,(e.mem _ t).mp member,missing⟩,by cases failed; rfl⟩
  | ok level =>
    obtain ⟨-,rfl⟩ := g.currentLevel_eq_ok.mp collected
    rw [collected] at failed
    change (if _ = [] then _ else _) = _ at failed
    by_cases empty : (e.visit s.remaining).filter (g.ready s.completed) = []
    · simp only [empty,if_true,Except.error.injEq] at failed
      exact .inr ⟨empty,failed.symm⟩
    · simp [empty] at failed

/-- An iteration visits every remaining id, so one with no entry makes it panic. -/
theorem step_eq_missingKey {s : Leveling} (missing : ∃ t ∈ s.remaining, g.dependencies t = none) :
    g.step e s = .error .missingKey := by
  obtain ⟨t,member,absent⟩ := missing
  rw [step_eq,currentLevel_eq]
  cases found : (e.visit s.remaining).find? (fun t => (g.dependencies t).isNone) with
  | some _ => rfl
  | none => simpa [absent] using List.find?_eq_none.mp found t ((e.mem _ t).mpr member)

theorem mem_readyLevel {s : Leveling} {t : TaskId} :
    t ∈ g.readyLevel e s ↔ t ∈ s.remaining ∧ g.ready s.completed t = true := by
  rw [readyLevel,List.mem_filter,e.mem]

theorem readyLevel_nodup (s : Leveling) : (g.readyLevel e s).Nodup := (e.nodup _).filter _

theorem readyLevel_subset (s : Leveling) : ∀ t ∈ g.readyLevel e s, t ∈ s.remaining :=
  fun t member => (e.mem _ t).mp (List.mem_filter.mp member).1

theorem step_card_lt {s next : Leveling} (stepped : g.step e s = .ok next) :
    next.remaining.card < s.remaining.card := by
  obtain ⟨-,nonempty,rfl⟩ := (g.step_eq_ok e).mp stepped
  obtain ⟨t,member⟩ := List.exists_mem_of_ne_nil _ nonempty
  apply Finset.card_lt_card
  exact Finset.sdiff_ssubset (fun t member => g.readyLevel_subset e s t (List.mem_toFinset.mp member))
    ⟨t,List.mem_toFinset.mpr member⟩

/-- The `while !remaining.is_empty()` loop; each iteration empties `remaining` further. -/
def levelLoop (s : Leveling) : Except Panic (List (List TaskId)) :=
  if s.remaining = ∅ then .ok s.levels
  else match _stepped : g.step e s with
    | .error p => .error p
    | .ok next => levelLoop next
termination_by s.remaining.card
decreasing_by exact g.step_card_lt e _stepped

def executionLevels : Except Panic (List (List TaskId)) := g.levelLoop e g.start

/-- The same loop cut off after `fuel` iterations: `none` when it has not exited by then. -/
def levelLoopFor : Nat → Leveling → Option (Except Panic (List (List TaskId)))
  | 0, s => if s.remaining = ∅ then some (.ok s.levels) else none
  | fuel + 1, s =>
    if s.remaining = ∅ then some (.ok s.levels)
    else match g.step e s with
      | .error p => some (.error p)
      | .ok next => levelLoopFor fuel next

theorem levelLoop_done {s : Leveling} (done : s.remaining = ∅) : g.levelLoop e s = .ok s.levels := by
  rw [levelLoop,if_pos done]

theorem levelLoop_pending {s : Leveling} (pending : s.remaining ≠ ∅) :
    g.levelLoop e s = match g.step e s with
      | .error p => .error p
      | .ok next => g.levelLoop e next := by
  rw [levelLoop,if_neg pending]
  split <;> simp_all

/-- The loop exits within as many iterations as `remaining` has members. -/
theorem levelLoopFor_eq {fuel : Nat} {s : Leveling} (enough : s.remaining.card ≤ fuel) :
    g.levelLoopFor e fuel s = some (g.levelLoop e s) := by
  induction fuel generalizing s with
  | zero =>
    have done : s.remaining = ∅ := Finset.card_eq_zero.mp (Nat.le_zero.mp enough)
    simp [levelLoopFor,done,g.levelLoop_done e done]
  | succ fuel ih =>
    by_cases done : s.remaining = ∅
    · simp [levelLoopFor,done,g.levelLoop_done e done]
    · rw [levelLoopFor,if_neg done,g.levelLoop_pending e done]
      cases stepped : g.step e s with
      | error p => rfl
      | ok next =>
        apply ih
        have := g.step_card_lt e stepped
        omega

end DependencyGraph

end ParallelDeterminism
