import ParallelDeterminism.Schedule

/-! Growing the input by one task. `from_tasks` only ever looks back, so the dependency sets
of the earlier positions do not change, and neither do their heights: the earlier tasks keep
their levels and the new one goes one level past the highest earlier task it conflicts with. -/
namespace ParallelDeterminism

namespace DependencyGraph

variable (tasks : List Task) (task : Task)

theorem getElem!_append_left {j : TaskId} (within : j < tasks.length) : (tasks ++ [task])[j]! = tasks[j]! := by
  rw [getElem!_pos (tasks ++ [task]) j (by simpa using Nat.lt_succ_of_lt within),
    getElem!_pos tasks j within,List.getElem_append_left]

theorem fromTasks_append_dependencies_of_lt {t : TaskId} (within : t < tasks.length) :
    (fromTasks (tasks ++ [task])).dependencies t = (fromTasks tasks).dependencies t := by
  rw [fromTasks_dependencies_eq,fromTasks_dependencies_eq,List.getElem?_append_left within,
    List.getElem?_eq_getElem within]
  exact congrArg some (Finset.filter_congr fun j before => by
    rw [getElem!_append_left tasks task ((Finset.mem_range.mp before).trans within)])

theorem fromTasks_append_dependencies_self :
    (fromTasks (tasks ++ [task])).dependencies tasks.length =
      some ((Finset.range tasks.length).filter fun j => task.conflictsWith tasks[j]!) := by
  rw [fromTasks_dependencies_eq,List.getElem?_append_right le_rfl,Nat.sub_self]
  exact congrArg some (Finset.filter_congr fun j before => by
    rw [getElem!_append_left tasks task (Finset.mem_range.mp before)]
    rfl)

/-- Heights after appending: the earlier positions keep theirs, and the new task's is one
more than the highest earlier task it conflicts with. -/
theorem height_append {final final' : Leveling} (valid : (fromTasks tasks).Invariant final)
    (done : final.remaining = ∅) (valid' : (fromTasks (tasks ++ [task])).Invariant final')
    (done' : final'.remaining = ∅) (positional : tasks.map (·.id) = List.range tasks.length)
    (positional' : (tasks ++ [task]).map (·.id) = List.range (tasks ++ [task]).length) :
    (∀ t < tasks.length, (fromTasks (tasks ++ [task])).height t = (fromTasks tasks).height t) ∧
    (fromTasks (tasks ++ [task])).height tasks.length =
      ((Finset.range tasks.length).filter fun j => task.conflictsWith tasks[j]!).sup
        fun j => (fromTasks tasks).height j + 1 := by
  have member : ∀ t < tasks.length, t ∈ (fromTasks (tasks ++ [task])).taskIds := fun t within => by
    rw [mem_taskIds_fromTasks positional',List.length_append,List.length_singleton]
    exact Nat.lt_succ_of_lt within
  have earlier : ∀ t < tasks.length, (fromTasks (tasks ++ [task])).height t = (fromTasks tasks).height t := by
    intro t
    induction t using Nat.strong_induction_on with
    | _ t ih =>
      intro within
      obtain ⟨deps,entry,recursion⟩ := final_height_eq valid done ((mem_taskIds_fromTasks positional).mpr within)
      obtain ⟨deps',entry',recursion'⟩ := final_height_eq valid' done' (member t within)
      rw [fromTasks_append_dependencies_of_lt tasks task within,entry,Option.some.injEq] at entry'
      subst entry'
      rw [recursion,recursion']
      refine Finset.sup_congr rfl fun d dep => ?_
      have below := fromTasks_dependsOn_lt tasks t d ⟨deps,entry,dep⟩
      rw [ih d below (below.trans within)]
  refine ⟨earlier,?_⟩
  have appended : tasks.length ∈ (fromTasks (tasks ++ [task])).taskIds := by
    rw [mem_taskIds_fromTasks positional']
    simp
  obtain ⟨deps,entry,recursion⟩ := final_height_eq valid' done' appended
  rw [fromTasks_append_dependencies_self,Option.some.injEq] at entry
  subst entry
  rw [recursion]
  exact Finset.sup_congr rfl fun j dep => by
    rw [earlier j (Finset.mem_range.mp (Finset.mem_filter.mp dep).1)]

/-- With ids equal to positions, appending a task with the next id leaves every earlier task
at the level it had, whatever order either run iterates its sets in, and puts the new task
one level past the highest earlier task it conflicts with (level `0` if there is none). -/
theorem executionLevels_fromTasks_append (e e' : Enumeration)
    (positional : tasks.map (·.id) = List.range tasks.length) (next : task.id = tasks.length) :
    ∃ levels levels', (fromTasks tasks).executionLevels e = .ok levels ∧
      (fromTasks (tasks ++ [task])).executionLevels e' = .ok levels' ∧
      ∀ t k, t ∈ levels'.getD k [] ↔ t ∈ levels.getD k [] ∨
        t = tasks.length ∧ k = ((Finset.range tasks.length).filter fun j => task.conflictsWith tasks[j]!).sup
          fun j => (fromTasks tasks).height j + 1 := by
  have positional' : (tasks ++ [task]).map (·.id) = List.range (tasks ++ [task]).length := by
    simp [positional,next,List.range_succ]
  obtain ⟨final,valid,done,ran⟩ := fromTasks_final e tasks positional
  obtain ⟨final',valid',done',ran'⟩ := fromTasks_final e' _ positional'
  obtain ⟨earlier,last⟩ := height_append tasks task valid done valid' done' positional positional'
  refine ⟨final.levels,final'.levels,ran,ran',fun t k => ?_⟩
  rw [final_mem_getD_iff valid done,final_mem_getD_iff valid' done',mem_taskIds_fromTasks positional,
    mem_taskIds_fromTasks positional',List.length_append,List.length_singleton]
  rcases Nat.lt_trichotomy t tasks.length with within | rfl | beyond
  · rw [earlier t within]
    simp [within,within.ne,Nat.lt_succ_of_lt within]
  · simp [last]
  · have outside : ¬ t < tasks.length + 1 := Nat.not_lt.mpr beyond
    simp [beyond.ne',Nat.not_lt_of_gt beyond,outside]

theorem executionLevels_fromTasks_append_scenario :
    let tasks : List Task := [⟨0,[],["x"]⟩,⟨1,[],["y"]⟩,⟨2,["x"],["z"]⟩]
    let task : Task := ⟨3,["z"],["y"]⟩
    tasks.map (·.id) = List.range tasks.length ∧ task.id = tasks.length ∧
      ∃ levels levels', (fromTasks tasks).executionLevels Enumeration.ascending = .ok levels ∧
        (fromTasks (tasks ++ [task])).executionLevels Enumeration.ascending = .ok levels' ∧
        ∀ t k, t ∈ levels'.getD k [] ↔ t ∈ levels.getD k [] ∨
          t = tasks.length ∧ k = ((Finset.range tasks.length).filter fun j => task.conflictsWith tasks[j]!).sup
            fun j => (fromTasks tasks).height j + 1 :=
  ⟨rfl,rfl,executionLevels_fromTasks_append _ _ _ _ rfl rfl⟩

end DependencyGraph

end ParallelDeterminism
