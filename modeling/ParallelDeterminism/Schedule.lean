import ParallelDeterminism.Height

/-! The scheduler as it is used: `execution_levels(from_tasks(tasks))`. With ids equal to
positions it returns a leveling that keeps every conflicting pair in input order; with
other ids a position can drop out of the schedule without any error. -/
namespace ParallelDeterminism

namespace DependencyGraph

variable (e : Enumeration) (tasks : List Task)

theorem taskIds_fromTasks : (fromTasks tasks).taskIds = (tasks.map (·.id)).toFinset := rfl

theorem fromTasks_dependsOn_iff {t d : TaskId} :
    (fromTasks tasks).DependsOn t d ↔
      t < tasks.length ∧ d < t ∧ tasks[t]!.conflictsWith tasks[d]! = true := by
  rw [DependsOn,fromTasks_dependencies_eq]
  by_cases inside : t < tasks.length
  · simp [List.getElem?_eq_getElem inside,getElem!_pos tasks t inside,inside]
  · simp [List.getElem?_eq_none (Nat.le_of_not_lt inside),inside]

theorem lt_length_of_dependencies {t : TaskId} {deps : Finset TaskId}
    (entry : (fromTasks tasks).dependencies t = some deps) : t < tasks.length := by
  rw [fromTasks_dependencies_eq] at entry
  obtain ⟨task,found,-⟩ := Option.map_eq_some'.mp entry
  exact (List.getElem?_eq_some_iff.mp found).1

theorem mem_taskIds_fromTasks {tasks : List Task} (positional : tasks.map (·.id) = List.range tasks.length)
    {t : TaskId} : t ∈ (fromTasks tasks).taskIds ↔ t < tasks.length := by
  rw [taskIds_fromTasks,positional,List.mem_toFinset,List.mem_range]

/-- The graph of `from_tasks` is schedulable once every id is a position and every earlier
position an id's task conflicts with is itself an id. -/
theorem schedulable_fromTasks_of_closed
    (closed : ∀ t ∈ tasks.map (·.id), t < tasks.length ∧
      ∀ j < t, tasks[t]!.conflictsWith tasks[j]! = true → j ∈ tasks.map (·.id)) :
    (fromTasks tasks).Schedulable where
  entries t member := by
    obtain ⟨within,earlier⟩ := closed t (List.mem_toFinset.mp member)
    refine ⟨(Finset.range t).filter fun j => tasks[t].conflictsWith tasks[j]!,
      by simp [fromTasks_dependencies_eq,List.getElem?_eq_getElem within],fun j dep => ?_⟩
    obtain ⟨before,conflict⟩ := Finset.mem_filter.mp dep
    exact List.mem_toFinset.mpr (earlier j (Finset.mem_range.mp before) (by rwa [getElem!_pos tasks t within]))
  acyclic t cycle := fromTasks_acyclic tasks t (cycle.mono fun _ _ step => step.2.2)

theorem schedulable_fromTasks (positional : tasks.map (·.id) = List.range tasks.length) :
    (fromTasks tasks).Schedulable :=
  schedulable_fromTasks_of_closed tasks fun t id => by
    rw [positional,List.mem_range] at id
    exact ⟨id,fun j before _ => positional ▸ List.mem_range.mpr (before.trans id)⟩

section Final

variable {g : DependencyGraph} {s : Leveling} (valid : g.Invariant s) (done : s.remaining = ∅)
include valid done

theorem flatten_perm_of_final {l : List TaskId} (nodup : l.Nodup) (same : l.toFinset = g.taskIds) :
    s.levels.flatten.Perm l := by
  refine List.perm_of_nodup_nodup_toFinset_eq valid.nodup nodup (Finset.ext fun t => ?_)
  rw [List.mem_toFinset,← mem_taskIds_iff_flatten valid done,same]

end Final

theorem fromTasks_final (positional : tasks.map (·.id) = List.range tasks.length) :
    ∃ final : Leveling, (fromTasks tasks).Invariant final ∧ final.remaining = ∅ ∧
      (fromTasks tasks).executionLevels e = .ok final.levels := by
  obtain ⟨levels,ran⟩ := ((fromTasks tasks).executionLevels_ok_iff e).mpr (schedulable_fromTasks tasks positional)
  obtain ⟨final,valid,done,rfl⟩ := (fromTasks tasks).executionLevels_invariant e ran
  exact ⟨final,valid,done,ran⟩

/-- With ids equal to positions the pipeline returns normally, with no empty level, and the
levels concatenated are a permutation of `0..n-1`: each position lies in exactly one level,
once, and no other id appears; so there are at most `n` levels. -/
theorem executionLevels_fromTasks_partition (positional : tasks.map (·.id) = List.range tasks.length) :
    ∃ levels, (fromTasks tasks).executionLevels e = .ok levels ∧ (∀ level ∈ levels, level ≠ []) ∧
      levels.flatten.Perm (List.range tasks.length) ∧ levels.length ≤ tasks.length := by
  obtain ⟨final,valid,done,ran⟩ := fromTasks_final e tasks positional
  have perm := flatten_perm_of_final valid done (List.nodup_range tasks.length) (by rw [taskIds_fromTasks,positional])
  refine ⟨final.levels,ran,valid.nonempty,perm,?_⟩
  have := length_le_card valid
  rwa [taskIds_fromTasks,positional,List.toFinset_card_of_nodup (List.nodup_range _),List.length_range] at this

theorem executionLevels_fromTasks_partition_scenario :
    let tasks : List Task := [⟨0,[],["x"]⟩,⟨1,[],["y"]⟩,⟨2,["x"],["z"]⟩]
    tasks.map (·.id) = List.range tasks.length ∧
    ∃ levels, (fromTasks tasks).executionLevels Enumeration.ascending = .ok levels ∧
      (∀ level ∈ levels, level ≠ []) ∧ levels.flatten.Perm (List.range tasks.length) ∧ levels.length ≤ tasks.length :=
  ⟨rfl,executionLevels_fromTasks_partition _ _ rfl⟩

/-- Values below the length of their list: all of them occur iff none repeats. -/
theorem forall_mem_iff_nodup {l : List TaskId} (below : ∀ t ∈ l, t < l.length) :
    (∀ i < l.length, i ∈ l) ↔ l.Nodup := by
  have inRange : l.toFinset ⊆ Finset.range l.length := fun t member =>
    Finset.mem_range.mpr (below t (List.mem_toFinset.mp member))
  constructor
  · intro all
    have whole : l.toFinset = Finset.range l.length :=
      Finset.Subset.antisymm inRange fun i member => List.mem_toFinset.mpr (all i (Finset.mem_range.mp member))
    have card := congrArg Finset.card whole
    rw [List.card_toFinset,Finset.card_range] at card
    rw [← (List.dedup_sublist l).eq_of_length card]
    exact List.nodup_dedup l
  · intro nodup i inside
    have card : (Finset.range l.length).card ≤ l.toFinset.card := by
      rw [List.toFinset_card_of_nodup nodup,Finset.card_range]
    exact List.mem_toFinset.mp ((Finset.eq_of_subset_of_card_le inRange card).symm ▸ Finset.mem_range.mpr inside)

/-- With arbitrary ids, a normal return schedules exactly the distinct id values, each
once, all of them positions (an id `≥ n` has no entry and panics); every position is
scheduled iff the ids are pairwise distinct. -/
theorem executionLevels_fromTasks_ids {levels : List (List TaskId)}
    (ran : (fromTasks tasks).executionLevels e = .ok levels) :
    levels.flatten.Perm (tasks.map (·.id)).dedup ∧ (∀ t ∈ levels.flatten, t < tasks.length) ∧
      ((∀ i < tasks.length, i ∈ levels.flatten) ↔ (tasks.map (·.id)).Nodup) := by
  obtain ⟨final,valid,done,rfl⟩ := (fromTasks tasks).executionLevels_invariant e ran
  have schedulable := schedulable_of_final valid done
  have ids : ∀ t, t ∈ final.levels.flatten ↔ t ∈ (tasks.map (·.id)).toFinset := fun t => by
    rw [← mem_taskIds_iff_flatten valid done,taskIds_fromTasks]
  have below : ∀ t ∈ final.levels.flatten, t < tasks.length := fun t placed => by
    obtain ⟨deps,entry,-⟩ := schedulable.entries t ((mem_taskIds_iff_flatten valid done).mpr placed)
    exact lt_length_of_dependencies tasks entry
  refine ⟨flatten_perm_of_final valid done (List.nodup_dedup _) (by ext; simp [taskIds_fromTasks]),below,?_⟩
  have idsBelow : ∀ t ∈ tasks.map (·.id), t < (tasks.map (·.id)).length := fun t id => by
    simpa using below t ((ids t).mpr (List.mem_toFinset.mpr id))
  rw [← forall_mem_iff_nodup idsBelow,List.length_map]
  exact forall₂_congr fun i _ => (ids i).trans List.mem_toFinset

theorem executionLevels_fromTasks_ids_duplicate :
    let tasks : List Task := [⟨0,[],[]⟩,⟨0,[],[]⟩]
    (fromTasks tasks).executionLevels Enumeration.ascending = .ok [[0]] ∧
      [[0]].flatten.Perm (tasks.map (·.id)).dedup ∧ ¬ (∀ i < tasks.length, i ∈ [[0]].flatten) := by
  intro tasks
  have ran : (fromTasks tasks).executionLevels Enumeration.ascending = .ok [[0]] :=
    Option.some.inj ((executionLevels_eq _ _).symm.trans rfl)
  have facts := executionLevels_fromTasks_ids _ _ ran
  exact ⟨ran,facts.1,fun all => absurd (facts.2.2.mp all) (by decide)⟩

/-- Two tasks sharing id `0`: the run returns normally with the one level `[0]`, and
position `1` is in no level. -/
theorem executionLevels_fromTasks_drops_position :
    let tasks : List Task := [⟨0,[],[]⟩,⟨0,[],[]⟩]
    (fromTasks tasks).executionLevels Enumeration.ascending = .ok [[0]] ∧ 1 < tasks.length ∧
      1 ∉ [[0]].flatten :=
  ⟨Option.some.inj ((executionLevels_eq _ _).symm.trans rfl),by decide,by decide⟩

section Orders

theorem forall₂_perm_flatten {orders levels : List (List TaskId)} (perm : List.Forall₂ List.Perm orders levels) :
    orders.flatten.Perm levels.flatten := by
  induction perm with
  | nil => exact .nil
  | cons head _ ih => exact head.append ih

theorem forall₂_perm_getD {orders levels : List (List TaskId)} (perm : List.Forall₂ List.Perm orders levels) :
    ∀ k, (orders.getD k []).Perm (levels.getD k []) := by
  induction perm with
  | nil => exact fun _ => .nil
  | cons head _ ih => intro k; cases k with
    | zero => exact head
    | succ k => exact ih k

/-- Concatenating levels keeps everything of an earlier level before a later one. -/
theorem sublist_flatten {levels : List (List TaskId)} {i j : TaskId} {k k' : Nat}
    (first : i ∈ levels.getD k []) (second : j ∈ levels.getD k' []) (before : k < k') :
    [i,j].Sublist levels.flatten := by
  rw [← List.take_append_drop (k + 1) levels,List.flatten_append]
  exact List.Sublist.append (List.singleton_sublist.mpr (mem_flatten_take _ first (Nat.lt_succ_self k)))
    (List.singleton_sublist.mpr (mem_flatten_drop _ second before))

end Orders

section Conflicts

variable {e tasks} {final : Leveling} (valid : (fromTasks tasks).Invariant final) (done : final.remaining = ∅)
include valid done

theorem height_lt_of_conflict {i j : TaskId} (ii : i ∈ (fromTasks tasks).taskIds) (ij : j ∈ (fromTasks tasks).taskIds)
    (before : i < j) (conflict : tasks[j]!.conflictsWith tasks[i]! = true) :
    (fromTasks tasks).height i < (fromTasks tasks).height j := by
  obtain ⟨deps,entry,-⟩ := (schedulable_of_final valid done).entries j ij
  exact height_lt_of_dependsWithin valid done
    ⟨ij,ii,(fromTasks_dependsOn_iff tasks).mpr ⟨lt_length_of_dependencies tasks entry,before,conflict⟩⟩

theorem level_lt_of_conflict {i j : TaskId} {k k' : Nat} (before : i < j)
    (conflict : tasks[j]!.conflictsWith tasks[i]! = true)
    (first : i ∈ final.levels.getD k []) (second : j ∈ final.levels.getD k' []) : k < k' := by
  obtain ⟨ii,rfl⟩ := (final_mem_getD_iff valid done).mp first
  obtain ⟨ij,rfl⟩ := (final_mem_getD_iff valid done).mp second
  exact height_lt_of_conflict valid done ii ij before conflict

theorem same_level_independent {k : Nat} {a b : TaskId} (first : a ∈ final.levels.getD k [])
    (second : b ∈ final.levels.getD k []) (distinct : a ≠ b) :
    tasks[a]!.conflictsWith tasks[b]! = false := by
  rcases Nat.lt_or_gt_of_ne distinct with lt | gt
  · by_contra conflict
    rw [Bool.not_eq_false,conflictsWith_comm] at conflict
    exact Nat.lt_irrefl k (level_lt_of_conflict valid done lt conflict first second)
  · by_contra conflict
    rw [Bool.not_eq_false] at conflict
    exact Nat.lt_irrefl k (level_lt_of_conflict valid done gt conflict second first)

end Conflicts

/-- With ids equal to positions, a later task that conflicts with an earlier one lands in a
strictly later level, so no two tasks of one level conflict; running the levels in order,
each level in any order, is a permutation of `0..n-1` that keeps every conflicting pair in
input order. -/
theorem executionLevels_fromTasks_conflicts (positional : tasks.map (·.id) = List.range tasks.length) :
    ∃ levels, (fromTasks tasks).executionLevels e = .ok levels ∧
      (∀ i j k k', i < j → j < tasks.length → tasks[j]!.conflictsWith tasks[i]! = true →
        i ∈ levels.getD k [] → j ∈ levels.getD k' [] → k < k') ∧
      (∀ k a b, a ∈ levels.getD k [] → b ∈ levels.getD k [] → a ≠ b →
        tasks[a]!.conflictsWith tasks[b]! = false) ∧
      ∀ orders : List (List TaskId), List.Forall₂ List.Perm orders levels →
        orders.flatten.Perm (List.range tasks.length) ∧
        ∀ i j, i < j → j < tasks.length → tasks[j]!.conflictsWith tasks[i]! = true → [i,j].Sublist orders.flatten := by
  obtain ⟨final,valid,done,ran⟩ := fromTasks_final e tasks positional
  refine ⟨final.levels,ran,fun i j k k' before _ conflict first second =>
    level_lt_of_conflict valid done before conflict first second,
    fun k a b first second distinct => same_level_independent valid done first second distinct,
    fun orders perm => ⟨?_,fun i j before inside conflict => ?_⟩⟩
  · exact (forall₂_perm_flatten perm).trans
      (flatten_perm_of_final valid done (List.nodup_range _) (by rw [taskIds_fromTasks,positional]))
  · have ii : i ∈ (fromTasks tasks).taskIds := (mem_taskIds_fromTasks positional).mpr (before.trans inside)
    have ij : j ∈ (fromTasks tasks).taskIds := (mem_taskIds_fromTasks positional).mpr inside
    have first := (final_mem_getD_iff valid done).mpr ⟨ii,rfl⟩
    have second := (final_mem_getD_iff valid done).mpr ⟨ij,rfl⟩
    exact sublist_flatten ((forall₂_perm_getD perm _).mem_iff.mpr first) ((forall₂_perm_getD perm _).mem_iff.mpr second)
      (height_lt_of_conflict valid done ii ij before conflict)

theorem executionLevels_fromTasks_conflicts_scenario :
    let tasks : List Task := [⟨0,[],["x"]⟩,⟨1,[],["y"]⟩,⟨2,["x"],["z"]⟩]
    tasks.map (·.id) = List.range tasks.length ∧ tasks[2]!.conflictsWith tasks[0]! = true ∧
    ∃ levels, (fromTasks tasks).executionLevels Enumeration.ascending = .ok levels ∧
      ∀ orders : List (List TaskId), List.Forall₂ List.Perm orders levels → [0,2].Sublist orders.flatten := by
  intro tasks
  obtain ⟨levels,ran,-,-,serial⟩ := executionLevels_fromTasks_conflicts Enumeration.ascending tasks rfl
  exact ⟨rfl,rfl,levels,ran,fun orders perm => (serial orders perm).2 0 2 (by decide) (by decide) rfl⟩

/-- Whatever the ids, a schedule the pipeline returns keeps every conflicting pair of
positions in input order across levels, so no two tasks of one level conflict. -/
theorem executionLevels_fromTasks_conflict_free {levels : List (List TaskId)}
    (ran : (fromTasks tasks).executionLevels e = .ok levels) :
    (∀ i j k k', i < j → tasks[j]!.conflictsWith tasks[i]! = true →
      i ∈ levels.getD k [] → j ∈ levels.getD k' [] → k < k') ∧
    ∀ k a b, a ∈ levels.getD k [] → b ∈ levels.getD k [] → a ≠ b →
      tasks[a]!.conflictsWith tasks[b]! = false := by
  obtain ⟨final,valid,done,rfl⟩ := (fromTasks tasks).executionLevels_invariant e ran
  exact ⟨fun i j k k' before conflict first second => level_lt_of_conflict valid done before conflict first second,
    fun k a b first second distinct => same_level_independent valid done first second distinct⟩

theorem executionLevels_fromTasks_conflict_free_swapped_ids :
    let tasks : List Task := [⟨1,[],["x"]⟩,⟨0,["x"],[]⟩]
    (fromTasks tasks).executionLevels Enumeration.ascending = .ok [[0],[1]] ∧
      ∀ k a b, a ∈ [[0],[1]].getD k [] → b ∈ [[0],[1]].getD k [] → a ≠ b →
        tasks[a]!.conflictsWith tasks[b]! = false := by
  intro tasks
  have ran : (fromTasks tasks).executionLevels Enumeration.ascending = .ok [[0],[1]] :=
    Option.some.inj ((executionLevels_eq _ _).symm.trans rfl)
  exact ⟨ran,(executionLevels_fromTasks_conflict_free _ _ ran).2⟩

/-- Whatever the ids, the pipeline returns normally exactly when every id is a position and
every earlier position an id's task conflicts with is itself an id. -/
theorem executionLevels_fromTasks_ok_iff :
    (∃ levels, (fromTasks tasks).executionLevels e = .ok levels) ↔
      ∀ t ∈ tasks.map (·.id), t < tasks.length ∧
        ∀ j < t, tasks[t]!.conflictsWith tasks[j]! = true → j ∈ tasks.map (·.id) := by
  rw [executionLevels_ok_iff]
  constructor
  · intro schedulable t id
    have member : t ∈ (fromTasks tasks).taskIds := List.mem_toFinset.mpr id
    obtain ⟨deps,entry,inside⟩ := schedulable.entries t member
    have within := lt_length_of_dependencies tasks entry
    refine ⟨within,fun j before conflict => ?_⟩
    obtain ⟨deps',entry',dep⟩ := (fromTasks_dependsOn_iff tasks).mpr ⟨within,before,conflict⟩
    obtain rfl : deps = deps' := Option.some.inj (entry.symm.trans entry')
    exact List.mem_toFinset.mp (inside dep)
  · exact schedulable_fromTasks_of_closed tasks

end DependencyGraph

end ParallelDeterminism
