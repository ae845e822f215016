import ParallelDeterminism.Schedule
import Mathlib.Algebra.Order.Ring.Nat

/-! What the levels are for. A task's `work` is modelled as an effect on a store of
resource values that keeps to the task's declared reads and writes. Running the levels
one after another, every task of a level at once on the store the level starts from,
ends in the store that running the tasks one by one in input order ends in. -/
namespace ParallelDeterminism

/-- What a task's work does to a store of resource values, kept to the task's declared
accesses: it changes only resources it writes, and what it writes depends only on
resources it reads or writes. -/
structure Effect (α : Type) (task : Task) where
  apply : (ResourceId → α) → ResourceId → α
  frame : ∀ store r, r ∉ task.writes → apply store r = store r
  confined : ∀ store store', (∀ r, r ∈ task.reads ∨ r ∈ task.writes → store r = store' r) →
    ∀ r ∈ task.writes, apply store r = apply store' r

namespace Effect

variable {α : Type} {a b : Task}

/-- Work that writes to each resource it writes one more than the sum of what it reads. -/
def tally (task : Task) : Effect Nat task where
  apply store r := if r ∈ task.writes then (task.reads.map store).sum + 1 else store r
  frame _ _ unwritten := if_neg unwritten
  confined store store' same r written := by
    simp only [if_pos written,List.map_congr_left fun r' read => same r' (.inl read)]

/-- Work that does not overlap another's reads, after it, what it would have read first. -/
theorem apply_apply_of_apart (ea : Effect α a) (eb : Effect α b) (apart : ¬ Overlap a b)
    (store : ResourceId → α) {r : ResourceId} (written : r ∈ a.writes) :
    ea.apply (eb.apply store) r = ea.apply store r := by
  refine ea.confined _ _ (fun r' access => eb.frame store r' fun overwritten => apart ⟨r',?_⟩) r written
  rcases access with read | write
  exacts [.inl ⟨read,overwritten⟩,.inr (.inr ⟨write,overwritten⟩)]

/-- The work of two tasks that do not conflict commutes. -/
theorem apply_comm (ea : Effect α a) (eb : Effect α b) (independent : a.conflictsWith b = false)
    (store : ResourceId → α) : ea.apply (eb.apply store) = eb.apply (ea.apply store) := by
  have apart : ¬ Overlap a b := by
    rw [← conflictsWith_iff,independent]
    decide
  have apart' : ¬ Overlap b a := fun overlap => apart ((overlap_comm a b).mpr overlap)
  funext r
  by_cases wa : r ∈ a.writes
  · have wb : r ∉ b.writes := fun wb => apart ⟨r,.inr (.inr ⟨wa,wb⟩)⟩
    rw [ea.apply_apply_of_apart eb apart store wa,eb.frame _ r wb]
  · by_cases wb : r ∈ b.writes
    · rw [ea.frame _ r wa,eb.apply_apply_of_apart ea apart' store wb]
    · rw [ea.frame _ r wa,eb.frame _ r wb,eb.frame _ r wb,ea.frame _ r wa]

end Effect

/-- An order of positions keeps every conflicting pair in input order. -/
def ConflictOrdered (tasks : List Task) (order : List TaskId) : Prop :=
  order.Pairwise fun x y => tasks[x]!.conflictsWith tasks[y]! = true → x < y

theorem conflictOrdered_range (tasks : List Task) (n : Nat) : ConflictOrdered tasks (List.range n) := by
  refine (List.pairwise_lt_range n).imp ?_
  exact fun before _ => before

section Run

variable {α : Type} {tasks : List Task} (effects : (t : TaskId) → Effect α tasks[t]!)

/-- The tasks of `order` run one after another. -/
def runOrder (order : List TaskId) (store : ResourceId → α) : ResourceId → α :=
  order.foldl (fun store t => (effects t).apply store) store

/-- The tasks of `level` run at once on one store: a resource takes the value that the
task of the level writing it computes from that store. -/
def runParallel (level : List TaskId) (store : ResourceId → α) (r : ResourceId) : α :=
  match level.find? fun t => tasks[t]!.writes.contains r with
  | some t => (effects t).apply store r
  | none => store r

/-- The levels one after another, with a barrier between two levels. -/
def runLevels (levels : List (List TaskId)) (store : ResourceId → α) : ResourceId → α :=
  levels.foldl (fun store level => runParallel effects level store) store

@[simp] theorem runOrder_nil (store : ResourceId → α) : runOrder effects [] store = store := rfl

@[simp] theorem runOrder_cons (t : TaskId) (order : List TaskId) (store : ResourceId → α) :
    runOrder effects (t :: order) store = runOrder effects order ((effects t).apply store) := rfl

theorem runOrder_append (first second : List TaskId) (store : ResourceId → α) :
    runOrder effects (first ++ second) store = runOrder effects second (runOrder effects first store) :=
  List.foldl_append _ _ _ _

theorem runParallel_of_unwritten {level : List TaskId} {store : ResourceId → α} {r : ResourceId}
    (unwritten : ∀ u ∈ level, r ∉ tasks[u]!.writes) : runParallel effects level store r = store r := by
  rw [runParallel,List.find?_eq_none.mpr fun u member => by simpa using unwritten u member]

theorem runParallel_cons (t : TaskId) (level : List TaskId) (store : ResourceId → α) (r : ResourceId) :
    runParallel effects (t :: level) store r =
      if r ∈ tasks[t]!.writes then (effects t).apply store r else runParallel effects level store r := by
  by_cases written : r ∈ tasks[t]!.writes <;> simp [runParallel,List.find?_cons,written]

/-- A level run at once does not see the work of a task that overlaps none of its tasks,
on a resource that task does not write. -/
theorem runParallel_apply {task : Task} (effect : Effect α task) {level : List TaskId}
    (apart : ∀ u ∈ level, ¬ Overlap tasks[u]! task) (store : ResourceId → α) {r : ResourceId}
    (unwritten : r ∉ task.writes) :
    runParallel effects level (effect.apply store) r = runParallel effects level store r := by
  unfold runParallel
  cases found : level.find? fun t => tasks[t]!.writes.contains r with
  | none => exact effect.frame store r unwritten
  | some u =>
    exact (effects u).apply_apply_of_apart effect (apart u (List.mem_of_find?_eq_some found)) store
      (by simpa using List.find?_some found)

/-- Tasks that pairwise do not conflict give the same store run at once as run one by one. -/
theorem runParallel_eq_runOrder {level : List TaskId}
    (independent : level.Pairwise fun a b => tasks[a]!.conflictsWith tasks[b]! = false) (store : ResourceId → α) :
    runParallel effects level store = runOrder effects level store := by
  induction level generalizing store with
  | nil => rfl
  | cons t level ih =>
    obtain ⟨first,rest⟩ := List.pairwise_cons.mp independent
    have apart : ∀ u ∈ level, ¬ Overlap tasks[u]! tasks[t]! := fun u member overlap => by
      rw [← conflictsWith_iff,conflictsWith_comm,first u member] at overlap
      cases overlap
    funext r
    rw [runParallel_cons,runOrder_cons,← ih rest]
    by_cases written : r ∈ tasks[t]!.writes
    · rw [if_pos written,runParallel_of_unwritten effects fun u member overwritten =>
        apart u member ⟨r,.inr (.inr ⟨overwritten,written⟩)⟩]
    · rw [if_neg written,runParallel_apply effects _ apart store written]

theorem runLevels_eq_runOrder {levels : List (List TaskId)}
    (independent : ∀ level ∈ levels, level.Pairwise fun a b => tasks[a]!.conflictsWith tasks[b]! = false)
    (store : ResourceId → α) : runLevels effects levels store = runOrder effects levels.flatten store := by
  induction levels generalizing store with
  | nil => rfl
  | cons level levels ih =>
    rw [List.flatten_cons,runOrder_append,← runParallel_eq_runOrder effects (independent level (List.mem_cons_self _ _)),
      ← ih fun l member => independent l (List.mem_cons_of_mem _ member)]
    rfl

/-- A task that conflicts with none of the tasks before it can be run first. -/
theorem runOrder_move_front {p q : List TaskId} {a : TaskId}
    (independent : ∀ x ∈ p, tasks[x]!.conflictsWith tasks[a]! = false) (store : ResourceId → α) :
    runOrder effects (p ++ a :: q) store = runOrder effects (a :: (p ++ q)) store := by
  induction p generalizing store with
  | nil => rfl
  | cons x p ih =>
    rw [List.cons_append,runOrder_cons,ih (fun y member => independent y (List.mem_cons_of_mem x member)),
      runOrder_cons,runOrder_cons,List.cons_append,runOrder_cons,
      (effects a).apply_comm (effects x) (by rw [conflictsWith_comm,independent x (List.mem_cons_self x p)])]

/-- Two orders of the same tasks that keep every conflicting pair in input order end in the
same store: tasks that do not conflict commute. -/
theorem runOrder_eq_of_perm {order order' : List TaskId} (perm : order.Perm order')
    (ordered : ConflictOrdered tasks order) (ordered' : ConflictOrdered tasks order') (store : ResourceId → α) :
    runOrder effects order store = runOrder effects order' store := by
  induction order generalizing order' store with
  | nil => rw [perm.symm.eq_nil]
  | cons a order ih =>
    obtain ⟨p,q,rfl⟩ := List.append_of_mem (perm.subset (List.mem_cons_self a order))
    obtain ⟨after,ordered⟩ := List.pairwise_cons.mp ordered
    have independent : ∀ x ∈ p, tasks[x]!.conflictsWith tasks[a]! = false := fun x member =>
      Bool.eq_false_iff.mpr fun conflict => by
        have before : x < a := (List.pairwise_append.mp ordered').2.2 x member a (List.mem_cons_self a q) conflict
        rcases List.mem_cons.mp (perm.symm.subset (List.mem_append_left _ member)) with rfl | later
        · exact Nat.lt_irrefl x before
        · exact Nat.lt_asymm before (after x later (by rwa [conflictsWith_comm]))
    rw [runOrder_move_front effects independent,runOrder_cons,runOrder_cons]
    exact ih ((List.perm_cons a).mp (perm.trans List.perm_middle)) ordered
      (ordered'.sublist (List.Sublist.append_left (List.sublist_cons_self a q) p)) _

/-- Running `C` before `A`, which it conflicts with, changes what `C` writes. -/
example :
    runOrder (fun t => Effect.tally ([⟨0,[],["x"]⟩,⟨1,[],["y"]⟩,⟨2,["x"],["z"]⟩] : List Task)[t]!)
      [0,1,2] (fun _ => 0) "z" = 2 ∧
    runOrder (fun t => Effect.tally ([⟨0,[],["x"]⟩,⟨1,[],["y"]⟩,⟨2,["x"],["z"]⟩] : List Task)[t]!)
      [2,0,1] (fun _ => 0) "z" = 1 := by
  decide

end Run

namespace DependencyGraph

section Levels

variable {tasks : List Task} {final : Leveling} (valid : (fromTasks tasks).Invariant final)
  (done : final.remaining = ∅)
include valid done

theorem levels_pairwise_independent :
    ∀ level ∈ final.levels, level.Pairwise fun a b => tasks[a]!.conflictsWith tasks[b]! = false := by
  intro level member
  obtain ⟨k,inside,rfl⟩ := List.mem_iff_getElem.mp member
  have placed : ∀ x ∈ final.levels[k], x ∈ final.levels.getD k [] := fun x found => by
    rwa [List.getD_eq_getElem _ _ inside]
  exact ((List.nodup_flatten.mp valid.nodup).1 _ member).imp_of_mem fun first second distinct =>
    same_level_independent valid done (placed _ first) (placed _ second) distinct

/-- Running the levels in order, each level in any order, keeps every conflicting pair in
input order. -/
theorem conflictOrdered_flatten {orders : List (List TaskId)} (perm : List.Forall₂ List.Perm orders final.levels) :
    ConflictOrdered tasks orders.flatten := by
  have placed : ∀ k (inside : k < orders.length), ∀ x ∈ orders[k], x ∈ final.levels.getD k [] :=
    fun k inside x member => (forall₂_perm_getD perm k).mem_iff.mp (by rwa [List.getD_eq_getElem _ _ inside])
  have nodup := (List.nodup_flatten.mp ((forall₂_perm_flatten perm).nodup_iff.mpr valid.nodup)).1
  refine List.pairwise_flatten.mpr ⟨fun o member => ?_,
    List.pairwise_iff_getElem.mpr fun i j hi hj before x xi y yj conflict => ?_⟩
  · obtain ⟨k,inside,rfl⟩ := List.mem_iff_getElem.mp member
    refine (nodup _ member).imp_of_mem fun first second distinct conflict => absurd conflict ?_
    rw [same_level_independent valid done (placed k inside _ first) (placed k inside _ second) distinct]
    decide
  · rcases lt_trichotomy x y with lt | rfl | gt
    · exact lt
    · exact absurd ((level_eq_height valid (placed i hi x xi)).trans (level_eq_height valid (placed j hj x yj)).symm)
        before.ne
    · exact absurd (level_lt_of_conflict valid done gt conflict (placed j hj y yj) (placed i hi x xi)) (by omega)

end Levels

/-- Serialisability: with ids equal to positions, for any work that keeps to its tasks'
declared reads and writes, running the levels one after another, all tasks of a level at
once on the store the level starts from, or each level's tasks one by one in any order,
ends in the store that running the tasks one by one in input order ends in. -/
theorem executionLevels_fromTasks_serializable (e : Enumeration) (tasks : List Task)
    (positional : tasks.map (·.id) = List.range tasks.length) {α : Type} (effects : (t : TaskId) → Effect α tasks[t]!) :
    ∃ levels, (fromTasks tasks).executionLevels e = .ok levels ∧ ∀ store,
      runLevels effects levels store = runOrder effects (List.range tasks.length) store ∧
      ∀ orders : List (List TaskId), List.Forall₂ List.Perm orders levels →
        runOrder effects orders.flatten store = runOrder effects (List.range tasks.length) store := by
  obtain ⟨final,valid,done,ran⟩ := fromTasks_final e tasks positional
  have serial : ∀ orders : List (List TaskId), List.Forall₂ List.Perm orders final.levels → ∀ store,
      runOrder effects orders.flatten store = runOrder effects (List.range tasks.length) store :=
    fun orders perm => runOrder_eq_of_perm effects
      ((forall₂_perm_flatten perm).trans
        (flatten_perm_of_final valid done (List.nodup_range _) (by rw [taskIds_fromTasks,positional])))
      (conflictOrdered_flatten valid done perm) (conflictOrdered_range tasks _)
  refine ⟨final.levels,ran,fun store => ⟨?_,fun orders perm => serial orders perm store⟩⟩
  rw [runLevels_eq_runOrder effects (levels_pairwise_independent valid done)]
  exact serial _ (List.forall₂_same.mpr fun _ _ => List.Perm.refl _) store

theorem executionLevels_fromTasks_serializable_scenario :
    let tasks : List Task := [⟨0,[],["x"]⟩,⟨1,[],["y"]⟩,⟨2,["x"],["z"]⟩]
    tasks.map (·.id) = List.range tasks.length ∧
    ∃ levels, (fromTasks tasks).executionLevels Enumeration.ascending = .ok levels ∧ ∀ store,
      runLevels (fun t => Effect.tally tasks[t]!) levels store =
        runOrder (fun t => Effect.tally tasks[t]!) (List.range tasks.length) store := by
  intro tasks
  obtain ⟨levels,ran,serial⟩ :=
    executionLevels_fromTasks_serializable Enumeration.ascending tasks rfl fun t => Effect.tally tasks[t]!
  exact ⟨rfl,levels,ran,fun store => (serial store).1⟩

end DependencyGraph

end ParallelDeterminism
