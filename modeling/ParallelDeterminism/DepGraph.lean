import ParallelDeterminism.Types
import Mathlib.Data.Finset.Basic
import Mathlib.Logic.Function.Basic
import Mathlib.Logic.Relation

/-! The dependency graph of `parallel_determinism/dep_graph.rs` and its builder
`from_tasks`. A `HashMap<TaskId, HashSet<TaskId>>` is a function into
`Option (Finset TaskId)`: `none` off its keys, `Function.update` for `insert`. -/
namespace ParallelDeterminism

structure DependencyGraph where
  tasks : List Task
  dependencies : TaskId → Option (Finset TaskId)

namespace DependencyGraph

/-- The inner loop of `from_tasks`: the positions of `earlier` that `task` conflicts with. -/
def earlierConflicts (task : Task) (earlier : List Task) : Finset TaskId :=
  earlier.enum.foldl (fun deps (j, other) => if task.conflictsWith other then insert j deps else deps) ∅

def fromTasks (tasks : List Task) : DependencyGraph where
  tasks := tasks
  dependencies := tasks.enum.foldl (fun dependencies (i, task) =>
    Function.update dependencies i (some (earlierConflicts task (tasks.take i)))) fun _ => none

/-- `t` waits for `d`: `d` is in the dependency set stored under `t`. -/
def DependsOn (g : DependencyGraph) (t d : TaskId) : Prop :=
  ∃ deps, g.dependencies t = some deps ∧ d ∈ deps

theorem mem_foldl_insert (c : α → Bool) (l : List (TaskId × α)) (s : Finset TaskId) (j : TaskId) :
    j ∈ l.foldl (fun deps (i, a) => if c a then insert i deps else deps) s ↔
      j ∈ s ∨ ∃ a, (j,a) ∈ l ∧ c a = true := by
  induction l generalizing s with
  | nil => simp
  | cons p l ih =>
    obtain ⟨i,a⟩ := p
    rw [List.foldl_cons,ih]
    by_cases conflict : c a <;> simp only [conflict,if_true,Finset.mem_insert,List.mem_cons,Prod.mk.injEq] <;>
      aesop

theorem mem_earlierConflicts (task : Task) (earlier : List Task) (j : TaskId) :
    j ∈ earlierConflicts task earlier ↔ ∃ other, earlier[j]? = some other ∧ task.conflictsWith other = true := by
  simp [earlierConflicts,mem_foldl_insert,List.mem_enum_iff_getElem?]

theorem foldl_update_enum (f : TaskId → α → β) (l : List α) (k : TaskId) :
    (l.enum.foldl (fun m (i, a) => Function.update m i (some (f i a))) fun _ => none) k = l[k]?.map (f k) := by
  induction l using List.reverseRecOn with
  | nil => simp
  | append_singleton l a ih =>
    rw [List.enum_append,List.foldl_append,List.enumFrom_singleton,List.foldl_cons,List.foldl_nil]
    dsimp only
    rw [Function.update_apply,ih,List.getElem?_append]
    rcases Nat.lt_trichotomy k l.length with before | rfl | after
    · simp [before,before.ne]
    · simp
    · simp only [after.ne',after.not_lt,if_false]
      rw [List.getElem?_eq_none (by omega),List.getElem?_eq_none (by simp; omega)]

theorem fromTasks_dependencies_apply (tasks : List Task) (i : TaskId) :
    (fromTasks tasks).dependencies i = tasks[i]?.map fun task => earlierConflicts task (tasks.take i) :=
  foldl_update_enum (fun i task => earlierConflicts task (tasks.take i)) tasks i

theorem earlierConflicts_take (tasks : List Task) (task : Task) (i : TaskId) (inside : i < tasks.length) :
    earlierConflicts task (tasks.take i) = (Finset.range i).filter fun j => task.conflictsWith tasks[j]! := by
  ext j
  rw [mem_earlierConflicts,Finset.mem_filter,Finset.mem_range,List.getElem?_take]
  by_cases before : j < i
  · simp [before,List.getElem?_eq_getElem (before.trans inside),getElem!_pos tasks j (before.trans inside)]
  · simp [before]

theorem fromTasks_dependencies_eq (tasks : List Task) (i : TaskId) :
    (fromTasks tasks).dependencies i =
      tasks[i]?.map fun task => (Finset.range i).filter fun j => task.conflictsWith tasks[j]! := by
  rw [fromTasks_dependencies_apply]
  by_cases inside : i < tasks.length
  · simp [List.getElem?_eq_getElem inside,earlierConflicts_take tasks _ i inside]
  · simp [List.getElem?_eq_none (Nat.le_of_not_lt inside)]

theorem fromTasks_dependsOn_lt (tasks : List Task) (t d : TaskId)
    (depends : (fromTasks tasks).DependsOn t d) : d < t := by
  obtain ⟨deps,stored,member⟩ := depends
  rw [fromTasks_dependencies_eq] at stored
  obtain ⟨task,-,rfl⟩ := Option.map_eq_some'.mp stored
  exact Finset.mem_range.mp (Finset.mem_filter.mp member).1

/-- Along a path whose every step lowers `f`, `f` drops; so such a relation has no cycle. -/
theorem lt_of_transGen {r : α → α → Prop} (f : α → Nat) (step : ∀ a b, r a b → f b < f a) {a b : α}
    (path : Relation.TransGen r a b) : f b < f a := by
  induction path with
  | single last => exact step _ _ last
  | tail _ last ih => exact (step _ _ last).trans ih

theorem fromTasks_acyclic (tasks : List Task) (t : TaskId) :
    ¬ Relation.TransGen (fromTasks tasks).DependsOn t t := fun cycle =>
  Nat.lt_irrefl t (lt_of_transGen id (fromTasks_dependsOn_lt tasks) cycle)

/-- `from_tasks` fills exactly the keys `0..n-1`, each with the earlier positions its task
conflicts with; dependencies point to smaller positions, so depending has no cycle. -/
theorem fromTasks_dependencies (tasks : List Task) :
    (∀ i, (fromTasks tasks).dependencies i =
      tasks[i]?.map fun task => (Finset.range i).filter fun j => task.conflictsWith tasks[j]!) ∧
    (∀ t d, (fromTasks tasks).DependsOn t d → d < t) ∧
    ∀ t, ¬ Relation.TransGen (fromTasks tasks).DependsOn t t :=
  ⟨fromTasks_dependencies_eq tasks,fromTasks_dependsOn_lt tasks,fromTasks_acyclic tasks⟩

example : (fromTasks [⟨0,[],["acct1"]⟩,⟨1,[],["acct1"]⟩]).dependencies 1 = some {0} := by decide

end DependencyGraph

end ParallelDeterminism
