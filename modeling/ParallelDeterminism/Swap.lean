import ParallelDeterminism.Schedule

/-! Reordering the input, ids renumbered to the new positions. A reordering that keeps every
conflicting pair in input order relabels the dependency graph; heights, and with them levels,
follow the tasks, and they do so only for such reorderings. Exchanging two adjacent tasks that
do not conflict is one of them. -/
namespace ParallelDeterminism

namespace DependencyGraph

/-- Heights do not see a relabelling of ids that carries one dependency map to the other. -/
theorem heightWithin_relabel {g g' : DependencyGraph} (σ : Equiv.Perm TaskId)
    (relabel : ∀ t, g'.dependencies (σ t) = (g.dependencies t).map (Finset.image σ)) (fuel : Nat) (t : TaskId) :
    g'.heightWithin fuel (σ t) = g.heightWithin fuel t := by
  induction fuel generalizing t with
  | zero => rfl
  | succ fuel ih =>
    simp only [heightWithin,relabel]
    cases g.dependencies t with
    | none => rfl
    | some deps =>
      show (deps.image σ).sup _ = deps.sup _
      rw [Finset.sup_image]
      exact Finset.sup_congr rfl fun d _ => by simp [ih]

/-- The input reordered by `σ`: position `p` holds the task that stood at `σ.symm p`, its id
renumbered to `p`. -/
def reorder (tasks : List Task) (σ : Equiv.Perm TaskId) : List Task :=
  (List.range tasks.length).map fun p => { tasks[σ.symm p]! with id := p }

@[simp] theorem reorder_length (tasks : List Task) (σ : Equiv.Perm TaskId) :
    (reorder tasks σ).length = tasks.length := by
  simp [reorder]

theorem reorder_positional (tasks : List Task) (σ : Equiv.Perm TaskId) :
    (reorder tasks σ).map (·.id) = List.range (reorder tasks σ).length := by
  simp [reorder,Function.comp_def]

/-- A task conflicts with no position past the end of the input. -/
theorem lt_length_of_conflict {tasks : List Task} {task : Task} {l : TaskId}
    (conflict : task.conflictsWith tasks[l]! = true) : l < tasks.length := by
  by_contra outside
  rw [getElem!_neg tasks l outside] at conflict
  simp [Task.conflictsWith,default] at conflict

section Reorder

variable {tasks : List Task} {σ : Equiv.Perm TaskId} (bounded : ∀ i, σ i < tasks.length ↔ i < tasks.length)
include bounded

theorem reorder_getElem? (k : TaskId) :
    (reorder tasks σ)[σ k]? = tasks[k]?.map fun task => { task with id := σ k } := by
  rw [reorder,List.getElem?_map]
  by_cases within : k < tasks.length
  · rw [List.getElem?_range ((bounded k).mpr within),List.getElem?_eq_getElem within,Option.map_some',
      Option.map_some',Equiv.symm_apply_apply,getElem!_pos tasks k within]
  · rw [List.getElem?_eq_none (by simpa using mt (bounded k).mp within),
      List.getElem?_eq_none (Nat.le_of_not_lt within)]
    rfl

theorem reorder_getElem! {k : TaskId} (within : k < tasks.length) :
    (reorder tasks σ)[σ k]! = { tasks[k]! with id := σ k } := by
  rw [getElem!_def,reorder_getElem? bounded,List.getElem?_eq_getElem within,getElem!_pos tasks k within]
  rfl

theorem conflictsWith_reorder (task : Task) (l : TaskId) :
    task.conflictsWith (reorder tasks σ)[σ l]! = task.conflictsWith tasks[l]! := by
  rw [getElem!_def,getElem!_def,reorder_getElem? bounded]
  cases tasks[l]? <;> rfl

/-- A reordering that keeps every conflicting pair in input order relabels the dependency map
by `σ`. -/
theorem fromTasks_reorder_dependencies
    (keeps : ∀ i j, i < j → tasks[j]!.conflictsWith tasks[i]! = true → σ i < σ j) (k : TaskId) :
    (fromTasks (reorder tasks σ)).dependencies (σ k) =
      ((fromTasks tasks).dependencies k).map (Finset.image σ) := by
  rw [fromTasks_dependencies_eq,fromTasks_dependencies_eq,reorder_getElem? bounded,Option.map_map,Option.map_map]
  cases found : tasks[k]? with
  | none => rfl
  | some task =>
    have same : tasks[k]! = task := List.getElem!_of_getElem? found
    have order : ∀ l, task.conflictsWith tasks[l]! = true → (σ l < σ k ↔ l < k) := by
      intro l conflict
      rcases Nat.lt_trichotomy l k with before | rfl | after
      · exact iff_of_true (keeps l k before (same ▸ conflict)) before
      · exact iff_of_false (lt_irrefl _) (lt_irrefl _)
      · refine iff_of_false (Nat.lt_asymm (keeps k l after ?_)) (Nat.lt_asymm after)
        rw [conflictsWith_comm,same,conflict]
    refine congrArg some (Finset.ext fun j => ?_)
    obtain ⟨l,rfl⟩ : ∃ l, σ l = j := ⟨σ.symm j,σ.apply_symm_apply j⟩
    simp only [Function.comp,Option.map_some',Finset.mem_filter,Finset.mem_range,
      (Equiv.injective _).mem_finset_image]
    rw [show ({ task with id := σ k } : Task).conflictsWith _ = task.conflictsWith _ from rfl,
      conflictsWith_reorder bounded]
    exact and_congr_left (order l)

/-- A reordering that keeps every conflicting pair in input order keeps every task at its
level, whatever order either run iterates its sets in. -/
theorem reorder_mem_getD_iff (positional : tasks.map (·.id) = List.range tasks.length)
    (keeps : ∀ i j, i < j → tasks[j]!.conflictsWith tasks[i]! = true → σ i < σ j)
    {final final' : Leveling} (valid : (fromTasks tasks).Invariant final) (done : final.remaining = ∅)
    (valid' : (fromTasks (reorder tasks σ)).Invariant final') (done' : final'.remaining = ∅) (t : TaskId) (k : Nat) :
    t ∈ final.levels.getD k [] ↔ σ t ∈ final'.levels.getD k [] := by
  have positional' := reorder_positional tasks σ
  have cards : (fromTasks (reorder tasks σ)).taskIds.card = (fromTasks tasks).taskIds.card := by
    rw [taskIds_fromTasks,taskIds_fromTasks,positional,positional',reorder_length]
  rw [final_mem_getD_iff valid done,final_mem_getD_iff valid' done',mem_taskIds_fromTasks positional,
    mem_taskIds_fromTasks positional',reorder_length,bounded,height,height,cards,
    heightWithin_relabel _ (fromTasks_reorder_dependencies bounded keeps)]

end Reorder

/-- Tasks `i` and `i + 1` exchanged, their ids renumbered to their new positions. -/
def swapAdjacent (tasks : List Task) (i : Nat) : List Task :=
  (tasks.set i { tasks[i + 1]! with id := i }).set (i + 1) { tasks[i]! with id := i + 1 }

theorem swap_lt_swap_iff {i k l : Nat} (apart : ¬ (k = i ∧ l = i + 1)) (apart' : ¬ (k = i + 1 ∧ l = i)) :
    Equiv.swap i (i + 1) l < Equiv.swap i (i + 1) k ↔ l < k := by
  simp only [Equiv.swap_apply_def]
  split_ifs <;> omega

theorem swap_lt_iff {i n l : Nat} (inside : i + 1 < n) : Equiv.swap i (i + 1) l < n ↔ l < n := by
  simp only [Equiv.swap_apply_def]
  split_ifs <;> omega

/-- With ids equal to positions, exchanging two neighbours is the reordering by their
transposition. -/
theorem swapAdjacent_eq_reorder {tasks : List Task} {i : Nat}
    (positional : tasks.map (·.id) = List.range tasks.length) (inside : i + 1 < tasks.length) :
    swapAdjacent tasks i = reorder tasks (Equiv.swap i (i + 1)) := by
  apply List.ext_getElem?
  intro j
  obtain ⟨k,rfl⟩ : ∃ k, Equiv.swap i (i + 1) k = j := ⟨_,Equiv.swap_apply_self _ _ _⟩
  rw [reorder_getElem? fun _ => swap_lt_iff inside]
  unfold swapAdjacent
  rw [List.getElem?_set,List.getElem?_set,List.length_set]
  by_cases first : k = i
  · subst first
    simp [inside,List.getElem?_eq_getElem (Nat.lt_of_succ_lt inside),getElem!_pos tasks k (Nat.lt_of_succ_lt inside)]
  by_cases second : k = i + 1
  · subst second
    simp [inside,Nat.lt_of_succ_lt inside,List.getElem?_eq_getElem inside,getElem!_pos tasks (i + 1) inside]
  rw [Equiv.swap_apply_of_ne_of_ne first second,if_neg (Ne.symm second),if_neg (Ne.symm first)]
  cases found : tasks[k]? with
  | none => rfl
  | some task =>
    have id := congrArg (·[k]?) positional
    simp only [List.getElem?_map,found,Option.map_some'] at id
    have within := (List.getElem?_eq_some_iff.mp found).1
    rw [List.getElem?_range within,Option.some.injEq] at id
    simp [← id]

/-- Exchanging two neighbours that do not conflict keeps every conflicting pair in input order. -/
theorem swap_keeps_conflicts {tasks : List Task} {i : Nat}
    (independent : tasks[i]!.conflictsWith tasks[i + 1]! = false) (k l : TaskId) (before : k < l)
    (conflict : tasks[l]!.conflictsWith tasks[k]! = true) : Equiv.swap i (i + 1) k < Equiv.swap i (i + 1) l := by
  refine (swap_lt_swap_iff ?_ ?_).mpr before
  · rintro ⟨rfl,rfl⟩
    exact Nat.not_succ_lt_self before
  · rintro ⟨rfl,rfl⟩
    rw [conflictsWith_comm,independent] at conflict
    cases conflict

/-- With ids equal to positions, exchanging two adjacent tasks that do not conflict (ids
renumbered to positions) leaves every task at the level it had, whatever order either run
iterates its sets in, and each run places every position: levels depend only on the relative
order of conflicting tasks. -/
theorem executionLevels_swap_levels (e e' : Enumeration) (tasks : List Task) (i : Nat)
    (positional : tasks.map (·.id) = List.range tasks.length) (inside : i + 1 < tasks.length)
    (independent : tasks[i]!.conflictsWith tasks[i + 1]! = false) :
    ∃ levels levels', (fromTasks tasks).executionLevels e = .ok levels ∧
      (fromTasks (swapAdjacent tasks i)).executionLevels e' = .ok levels' ∧
      levels.flatten.Perm (List.range tasks.length) ∧ levels'.flatten.Perm (List.range tasks.length) ∧
      ∀ t k, t ∈ levels.getD k [] ↔ Equiv.swap i (i + 1) t ∈ levels'.getD k [] := by
  have positional' := reorder_positional tasks (Equiv.swap i (i + 1))
  rw [swapAdjacent_eq_reorder positional inside]
  obtain ⟨final,valid,done,ran⟩ := fromTasks_final e tasks positional
  obtain ⟨final',valid',done',ran'⟩ := fromTasks_final e' _ positional'
  have placed := flatten_perm_of_final valid done (List.nodup_range _) (by rw [taskIds_fromTasks,positional])
  have placed' := flatten_perm_of_final valid' done' (List.nodup_range _) (by rw [taskIds_fromTasks,positional'])
  rw [reorder_length] at placed'
  exact ⟨final.levels,final'.levels,ran,ran',placed,placed',
    reorder_mem_getD_iff (fun _ => swap_lt_iff inside) positional (swap_keeps_conflicts independent) valid done valid' done'⟩

theorem executionLevels_swap_levels_scenario :
    let tasks : List Task := [⟨0,[],["x"]⟩,⟨1,[],["y"]⟩,⟨2,["x"],["z"]⟩]
    tasks.map (·.id) = List.range tasks.length ∧ 1 + 1 < tasks.length ∧
      tasks[1]!.conflictsWith tasks[1 + 1]! = false ∧
      ∃ levels levels', (fromTasks tasks).executionLevels Enumeration.ascending = .ok levels ∧
        (fromTasks (swapAdjacent tasks 1)).executionLevels Enumeration.ascending = .ok levels' ∧
        levels.flatten.Perm (List.range tasks.length) ∧ levels'.flatten.Perm (List.range tasks.length) ∧
        ∀ t k, t ∈ levels.getD k [] ↔ Equiv.swap 1 (1 + 1) t ∈ levels'.getD k [] :=
  ⟨rfl,by decide,rfl,executionLevels_swap_levels _ _ _ 1 rfl (by decide) rfl⟩

/-- Reordering the input, ids renumbered to the new positions, leaves every task at the
level it had, whatever order either run iterates its sets in, exactly when the reordering
keeps every conflicting pair in input order. -/
theorem executionLevels_reorder_levels (e e' : Enumeration) (tasks : List Task) (σ : Equiv.Perm TaskId)
    (positional : tasks.map (·.id) = List.range tasks.length)
    (bounded : ∀ i, σ i < tasks.length ↔ i < tasks.length) :
    ∃ levels levels', (fromTasks tasks).executionLevels e = .ok levels ∧
      (fromTasks (reorder tasks σ)).executionLevels e' = .ok levels' ∧
      ((∀ t k, t ∈ levels.getD k [] ↔ σ t ∈ levels'.getD k []) ↔
        ∀ i j, i < j → tasks[j]!.conflictsWith tasks[i]! = true → σ i < σ j) := by
  have positional' := reorder_positional tasks σ
  obtain ⟨final,valid,done,ran⟩ := fromTasks_final e tasks positional
  obtain ⟨final',valid',done',ran'⟩ := fromTasks_final e' _ positional'
  refine ⟨final.levels,final'.levels,ran,ran',⟨fun same i j before conflict => ?_,fun keeps t k => ?_⟩⟩
  · have within : j < tasks.length := lt_length_of_conflict ((conflictsWith_comm _ _).trans conflict)
    have hasI := (mem_taskIds_fromTasks positional).mpr (before.trans within)
    have hasJ := (mem_taskIds_fromTasks positional).mpr within
    have lower := height_lt_of_conflict valid done hasI hasJ before conflict
    have first := (final_mem_getD_iff valid done).mpr ⟨hasI,rfl⟩
    have second := (final_mem_getD_iff valid done).mpr ⟨hasJ,rfl⟩
    rcases Nat.lt_trichotomy (σ i) (σ j) with lt | eq | gt
    · exact lt
    · exact absurd (σ.injective eq) before.ne
    · have conflict' : (reorder tasks σ)[σ i]!.conflictsWith (reorder tasks σ)[σ j]! = true := by
        rw [reorder_getElem! bounded (before.trans within),
          show ({ tasks[i]! with id := σ i } : Task).conflictsWith _ = tasks[i]!.conflictsWith _ from rfl,
          conflictsWith_reorder bounded,conflictsWith_comm,conflict]
      exact absurd (level_lt_of_conflict valid' done' gt conflict' ((same j _).mp second) ((same i _).mp first))
        (Nat.lt_asymm lower)
  · exact reorder_mem_getD_iff bounded positional keeps valid done valid' done' t k

theorem executionLevels_reorder_levels_scenario :
    let tasks : List Task := [⟨0,[],["x"]⟩,⟨1,[],["y"]⟩,⟨2,["x"],["z"]⟩]
    tasks.map (·.id) = List.range tasks.length ∧
    (∀ i, Equiv.swap 0 (0 + 1) i < tasks.length ↔ i < tasks.length) ∧
      ∃ levels levels', (fromTasks tasks).executionLevels Enumeration.ascending = .ok levels ∧
        (fromTasks (reorder tasks (Equiv.swap 0 (0 + 1)))).executionLevels Enumeration.ascending = .ok levels' ∧
        ((∀ t k, t ∈ levels.getD k [] ↔ Equiv.swap 0 (0 + 1) t ∈ levels'.getD k []) ↔
          ∀ i j, i < j → tasks[j]!.conflictsWith tasks[i]! = true → Equiv.swap 0 (0 + 1) i < Equiv.swap 0 (0 + 1) j) :=
  ⟨rfl,fun _ => swap_lt_iff (by decide),executionLevels_reorder_levels _ _ _ _ rfl fun _ => swap_lt_iff (by decide)⟩

end DependencyGraph

end ParallelDeterminism
