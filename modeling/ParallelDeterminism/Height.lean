import ParallelDeterminism.Invariant
import Mathlib.Data.Fintype.Card

/-! What the levels of `execution_levels` are: each task sits at its height in the
dependency graph, whatever the iteration order, and the loop panics exactly on the
graphs where some task id has no height. -/
namespace ParallelDeterminism

namespace DependencyGraph

variable (g : DependencyGraph) (e : Enumeration)

/-- Height by descent along dependencies, at most `fuel` deep: `0` without dependencies,
otherwise one more than the highest dependency. -/
def heightWithin : Nat → TaskId → Nat
  | 0, _ => 0
  | fuel + 1, t =>
    match g.dependencies t with
    | none => 0
    | some deps => deps.sup fun d => heightWithin fuel d + 1

/-- A task's height. Where `execution_levels` returns, every descent is shorter than the
number of task ids, so this fuel is exact. -/
def height (t : TaskId) : Nat := g.heightWithin g.taskIds.card t

/-- What `execution_levels` is for: the task ids grouped by height, lowest first, one
group for each height up to the greatest. -/
def heightLevels : List (Finset TaskId) :=
  (List.range (g.taskIds.sup fun t => g.height t + 1)).map fun k => g.taskIds.filter fun t => g.height t = k

section Placed

variable {g} {s : Leveling} (valid : g.Invariant s)
include valid

/-- A task of level `k + 1` has a dependency in level `k`: it was not ready one level earlier. -/
theorem Invariant.tight {k : Nat} {t : TaskId} (member : t ∈ s.levels.getD (k + 1) []) :
    ∃ deps, g.dependencies t = some deps ∧ ∃ d ∈ deps, d ∈ s.levels.getD k [] := by
  obtain ⟨deps,entry,d,dep,outside⟩ := valid.late k t member
  obtain ⟨deps',entry',placed⟩ := valid.earlier (k + 1) t member
  obtain rfl : deps = deps' := Option.some.inj (entry.symm.trans entry')
  obtain ⟨j,before,found⟩ := placed d dep
  obtain rfl : j = k := by
    by_contra other
    exact outside (mem_flatten_take _ found (by omega))
  exact ⟨deps,entry,d,dep,found⟩

/-- A task in level `k` has height `k` once the descent may go `k` deep. -/
theorem heightWithin_eq_of_mem {fuel k : Nat} {t : TaskId} (member : t ∈ s.levels.getD k [])
    (deep : k < fuel) : g.heightWithin fuel t = k := by
  induction fuel generalizing t k with
  | zero => omega
  | succ fuel ih =>
    obtain ⟨deps,entry,placed⟩ := valid.earlier k t member
    simp only [heightWithin,entry]
    apply le_antisymm
    · refine Finset.sup_le fun d dep => ?_
      obtain ⟨j,before,found⟩ := placed d dep
      rw [ih found (by omega)]
      omega
    · cases k with
      | zero => exact Nat.zero_le _
      | succ k =>
        obtain ⟨deps',entry',d,dep,found⟩ := valid.tight member
        obtain rfl : deps' = deps := Option.some.inj (entry'.symm.trans entry)
        exact Finset.le_sup_of_le dep (by rw [ih found (by omega)])

theorem length_le_card : s.levels.length ≤ g.taskIds.card := by
  calc s.levels.length ≤ s.levels.flatten.length := length_le_length_flatten _ valid.nonempty
    _ = s.levels.flatten.toFinset.card := (List.toFinset_card_of_nodup valid.nodup).symm
    _ ≤ g.taskIds.card := Finset.card_le_card fun t member => by
      rw [← valid.cover]
      exact Finset.mem_union_left _ ((valid.flatten t).mp (List.mem_toFinset.mp member))

theorem level_eq_height {k : Nat} {t : TaskId} (member : t ∈ s.levels.getD k []) : k = g.height t :=
  (heightWithin_eq_of_mem valid member
    ((lt_length_of_mem_getD _ member).trans_le (length_le_card valid))).symm

end Placed

/-- `t` waits for `d`, both being task ids. -/
def DependsWithin (t d : TaskId) : Prop := t ∈ g.taskIds ∧ d ∈ g.taskIds ∧ g.DependsOn t d

/-- What the loop needs to finish: every task id has an entry whose dependencies are
task ids, and depending has no cycle among task ids. -/
structure Schedulable : Prop where
  entries : ∀ t ∈ g.taskIds, ∃ deps, g.dependencies t = some deps ∧ deps ⊆ g.taskIds
  acyclic : ∀ t, ¬ Relation.TransGen g.DependsWithin t t

section Final

variable {g} {s : Leveling} (valid : g.Invariant s) (done : s.remaining = ∅)
include valid done

theorem mem_taskIds_iff_flatten {t : TaskId} : t ∈ g.taskIds ↔ t ∈ s.levels.flatten := by
  rw [valid.flatten,← valid.cover,done,Finset.union_empty]

theorem final_mem_getD_iff {t : TaskId} {k : Nat} :
    t ∈ s.levels.getD k [] ↔ t ∈ g.taskIds ∧ k = g.height t := by
  rw [mem_taskIds_iff_flatten valid done]
  constructor
  · intro member
    exact ⟨(mem_flatten_iff_getD _).mpr ⟨k,member⟩,level_eq_height valid member⟩
  · rintro ⟨placed,rfl⟩
    obtain ⟨j,found⟩ := (mem_flatten_iff_getD _).mp placed
    rwa [← level_eq_height valid found]

/-- The heights the levels exhibit obey the defining recursion of height. -/
theorem final_height_eq {t : TaskId} (id : t ∈ g.taskIds) :
    ∃ deps, g.dependencies t = some deps ∧ g.height t = deps.sup fun d => g.height d + 1 := by
  obtain ⟨k,member⟩ := (mem_flatten_iff_getD _).mp ((mem_taskIds_iff_flatten valid done).mp id)
  obtain ⟨deps,entry,placed⟩ := valid.earlier k t member
  refine ⟨deps,entry,?_⟩
  rw [← level_eq_height valid member,← heightWithin_eq_of_mem valid member (Nat.lt_succ_self k)]
  simp only [heightWithin,entry]
  refine Finset.sup_congr rfl fun d dep => ?_
  obtain ⟨j,before,found⟩ := placed d dep
  rw [heightWithin_eq_of_mem valid found before,← level_eq_height valid found]

theorem height_lt_of_dependsWithin {t d : TaskId} (depends : g.DependsWithin t d) : g.height d < g.height t := by
  obtain ⟨id,-,deps,entry,dep⟩ := depends
  obtain ⟨k,member⟩ := (mem_flatten_iff_getD _).mp ((mem_taskIds_iff_flatten valid done).mp id)
  obtain ⟨deps',entry',placed⟩ := valid.earlier k t member
  obtain rfl : deps' = deps := Option.some.inj (entry'.symm.trans entry)
  obtain ⟨j,before,found⟩ := placed d dep
  rwa [← level_eq_height valid member,← level_eq_height valid found]

theorem schedulable_of_final : g.Schedulable where
  entries t id := by
    obtain ⟨k,member⟩ := (mem_flatten_iff_getD _).mp ((mem_taskIds_iff_flatten valid done).mp id)
    obtain ⟨deps,entry,placed⟩ := valid.earlier k t member
    refine ⟨deps,entry,fun d dep => ?_⟩
    obtain ⟨j,-,found⟩ := placed d dep
    exact (mem_taskIds_iff_flatten valid done).mpr ((mem_flatten_iff_getD _).mpr ⟨j,found⟩)
  acyclic t cycle :=
    Nat.lt_irrefl _ (lt_of_transGen g.height (fun _ _ step => height_lt_of_dependsWithin valid done step) cycle)

end Final

section Progress

variable {g e} (schedulable : g.Schedulable)
include schedulable

/-- On a schedulable graph some remaining task is ready: take one that no other remaining
task is a dependency of, by well-foundedness of depending among the finitely many ids. -/
theorem exists_ready {s : Leveling} (valid : g.Invariant s) (pending : s.remaining.Nonempty) :
    ∃ t ∈ s.remaining, g.ready s.completed t = true := by
  let below : {x // x ∈ g.taskIds} → {x // x ∈ g.taskIds} → Prop := fun a b =>
    Relation.TransGen g.DependsWithin b.1 a.1
  haveI : IsTrans _ below := ⟨fun _ _ _ first second => second.trans first⟩
  haveI : IsIrrefl _ below := ⟨fun a cycle => schedulable.acyclic a.1 cycle⟩
  have inside : ∀ t ∈ s.remaining, t ∈ g.taskIds := fun t member =>
    valid.cover ▸ Finset.mem_union_right _ member
  obtain ⟨t,member⟩ := pending
  obtain ⟨m,remains,minimal⟩ := (Finite.wellFounded_of_trans_of_irrefl below).has_min
    {x | x.1 ∈ s.remaining} ⟨⟨t,inside t member⟩,member⟩
  obtain ⟨deps,entry,ids⟩ := schedulable.entries m.1 m.2
  refine ⟨m.1,remains,g.ready_eq_true.mpr ⟨deps,entry,fun d dep => ?_⟩⟩
  have finished : d ∉ s.remaining := fun waiting =>
    minimal ⟨d,ids dep⟩ waiting (.single ⟨m.2,ids dep,deps,entry,dep⟩)
  have covered := valid.cover ▸ ids dep
  rcases Finset.mem_union.mp covered with completed | waiting
  exacts [completed,absurd waiting finished]

theorem step_ok_of_schedulable {s : Leveling} (valid : g.Invariant s) (pending : s.remaining ≠ ∅) :
    ∃ next, g.step e s = .ok next := by
  obtain ⟨t,member,ready⟩ := exists_ready schedulable valid (Finset.nonempty_iff_ne_empty.mpr pending)
  refine ⟨_,(g.step_eq_ok e).mpr ⟨fun t member => ?_,
    List.ne_nil_of_mem ((g.mem_readyLevel e).mpr ⟨member,ready⟩),rfl⟩⟩
  obtain ⟨deps,entry,-⟩ := schedulable.entries t (valid.cover ▸ Finset.mem_union_right _ member)
  simp [entry]

theorem levelLoop_ok {s : Leveling} (valid : g.Invariant s) : ∃ levels, g.levelLoop e s = .ok levels := by
  induction s using levelLoop.induct g e with
  | case1 s done => exact ⟨s.levels,g.levelLoop_done e done⟩
  | case2 s pending p stepped =>
    obtain ⟨next,ok⟩ := step_ok_of_schedulable schedulable valid pending
    rw [stepped] at ok
    cases ok
  | case3 s pending next stepped ih =>
    obtain ⟨levels,ran⟩ := ih (g.step_invariant e valid stepped)
    exact ⟨levels,by rw [g.levelLoop_pending e pending,stepped]; exact ran⟩

end Progress

theorem executionLevels_ok_iff : (∃ levels, g.executionLevels e = .ok levels) ↔ g.Schedulable := by
  constructor
  · rintro ⟨levels,ran⟩
    obtain ⟨final,valid,done,-⟩ := g.executionLevels_invariant e ran
    exact schedulable_of_final valid done
  · exact fun schedulable => levelLoop_ok schedulable g.start_invariant

/-- Whatever the iteration order, a normal return places every task id in exactly one
level, the one at its height, and nothing else; heights obey their defining recursion, so
each dependency sits in an earlier level and a task of level `k + 1` has one in level `k`.
Another iteration order that also returns gives the same level sets. -/
theorem executionLevels_height {levels : List (List TaskId)} (ran : g.executionLevels e = .ok levels) :
    (∀ t k, t ∈ levels.getD k [] ↔ t ∈ g.taskIds ∧ k = g.height t) ∧
    (∀ t ∈ g.taskIds, ∃ deps, g.dependencies t = some deps ∧
      g.height t = deps.sup fun d => g.height d + 1) ∧
    (∀ k t d, t ∈ levels.getD k [] → g.DependsOn t d → ∃ j < k, d ∈ levels.getD j []) ∧
    (∀ k t, t ∈ levels.getD (k + 1) [] → ∃ d, g.DependsOn t d ∧ d ∈ levels.getD k []) ∧
    ∀ e' levels', g.executionLevels e' = .ok levels' → ∀ t k, t ∈ levels.getD k [] ↔ t ∈ levels'.getD k [] := by
  obtain ⟨final,valid,done,rfl⟩ := g.executionLevels_invariant e ran
  refine ⟨fun t k => final_mem_getD_iff valid done,fun t id => final_height_eq valid done id,
    fun k t d member ⟨deps,entry,dep⟩ => ?_,fun k t member => ?_,fun e' levels' ran' t k => ?_⟩
  · obtain ⟨deps',entry',placed⟩ := valid.earlier k t member
    exact placed d (Option.some.inj (entry'.symm.trans entry) ▸ dep)
  · obtain ⟨deps,entry,d,dep,found⟩ := valid.tight member
    exact ⟨d,⟨deps,entry,dep⟩,found⟩
  · obtain ⟨final',valid',done',rfl⟩ := g.executionLevels_invariant e' ran'
    rw [final_mem_getD_iff valid done,final_mem_getD_iff valid' done']

theorem executionLevels_height_scenario :
    let g := fromTasks [⟨0,[],["x"]⟩,⟨1,[],["y"]⟩,⟨2,["x"],["z"]⟩]
    g.executionLevels Enumeration.ascending = .ok [[0,1],[2]] ∧ g.height 2 = 1 := by
  intro g
  have ran : g.executionLevels Enumeration.ascending = .ok [[0,1],[2]] :=
    Option.some.inj ((executionLevels_eq _ _).symm.trans rfl)
  exact ⟨ran,(((executionLevels_height _ _ ran).1 2 1).mp (by decide)).2.symm⟩

section Fewest

variable {g} {s : Leveling} (valid : g.Invariant s) (done : s.remaining = ∅)
include valid done

/-- A placement that puts every dependency strictly earlier puts each task id no earlier
than its height. -/
theorem height_le_of_respects (place : TaskId → Nat)
    (respects : ∀ t ∈ g.taskIds, ∀ d, g.DependsOn t d → place d < place t) :
    ∀ t ∈ g.taskIds, g.height t ≤ place t := by
  suffices placed : ∀ k t, t ∈ s.levels.getD k [] → k ≤ place t by
    intro t id
    exact placed _ t ((final_mem_getD_iff valid done).mpr ⟨id,rfl⟩)
  intro k
  induction k with
  | zero => exact fun _ _ => Nat.zero_le _
  | succ k ih =>
    intro t member
    obtain ⟨deps,entry,d,dep,found⟩ := valid.tight member
    have id := ((final_mem_getD_iff valid done).mp member).1
    have := respects t id d ⟨deps,entry,dep⟩
    have := ih d found
    omega

theorem length_eq_sup_height : s.levels.length = g.taskIds.sup fun t => g.height t + 1 := by
  apply le_antisymm
  · cases length : s.levels.length with
    | zero => exact Nat.zero_le _
    | succ k =>
      have last : s.levels.getD k [] ∈ s.levels := by
        rw [List.getD_eq_getElem _ _ (by omega)]
        exact List.getElem_mem _
      obtain ⟨t,member⟩ := List.exists_mem_of_ne_nil _ (valid.nonempty _ last)
      obtain ⟨id,rfl⟩ := (final_mem_getD_iff valid done).mp member
      exact Finset.le_sup_of_le id le_rfl
  · refine Finset.sup_le fun t id => ?_
    have member := (final_mem_getD_iff valid done).mpr ⟨id,rfl⟩
    exact lt_length_of_mem_getD _ member

end Fewest

/-- A normal return has one level per height, as many as the longest chain of dependencies
has tasks; any placement of the task ids that puts every dependency strictly earlier needs
at least as many levels. -/
theorem executionLevels_fewest_levels {levels : List (List TaskId)} (ran : g.executionLevels e = .ok levels) :
    levels.length = (g.taskIds.sup fun t => g.height t + 1) ∧
    ∀ (place : TaskId → Nat) (m : Nat), (∀ t ∈ g.taskIds, ∀ d, g.DependsOn t d → place d < place t) →
      (∀ t ∈ g.taskIds, place t < m) → levels.length ≤ m := by
  obtain ⟨final,valid,done,rfl⟩ := g.executionLevels_invariant e ran
  refine ⟨length_eq_sup_height valid done,fun place m respects within => ?_⟩
  rw [length_eq_sup_height valid done]
  exact Finset.sup_le fun t id => (height_le_of_respects valid done place respects t id).trans_lt (within t id)

theorem executionLevels_fewest_levels_scenario :
    let g := fromTasks [⟨0,[],["x"]⟩,⟨1,[],["y"]⟩,⟨2,["x"],["z"]⟩]
    g.executionLevels Enumeration.ascending = .ok [[0,1],[2]] ∧ [[0,1],[2]].length = (g.taskIds.sup fun t => g.height t + 1) := by
  intro g
  have ran : g.executionLevels Enumeration.ascending = .ok [[0,1],[2]] :=
    Option.some.inj ((executionLevels_eq _ _).symm.trans rfl)
  exact ⟨ran,(executionLevels_fewest_levels _ _ ran).1⟩

/-- A normal return refines the abstract leveling: level `k` holds, without repetition,
exactly the task ids of height `k`, and there is one level per height. -/
theorem executionLevels_refines {levels : List (List TaskId)} (ran : g.executionLevels e = .ok levels) :
    levels.map List.toFinset = g.heightLevels ∧ ∀ level ∈ levels, level.Nodup := by
  obtain ⟨final,valid,done,rfl⟩ := g.executionLevels_invariant e ran
  refine ⟨List.ext_getElem (by simp [heightLevels,length_eq_sup_height valid done]) fun k inside _ => ?_,
    (List.nodup_flatten.mp valid.nodup).1⟩
  rw [List.length_map] at inside
  ext t
  rw [List.getElem_map,List.mem_toFinset,← List.getD_eq_getElem _ [] inside,final_mem_getD_iff valid done]
  simp [heightLevels,eq_comm]

theorem executionLevels_refines_scenario :
    let g := fromTasks [⟨0,[],["x"]⟩,⟨1,[],["y"]⟩,⟨2,["x"],["z"]⟩]
    g.executionLevels Enumeration.ascending = .ok [[0,1],[2]] ∧ [[0,1],[2]].map List.toFinset = g.heightLevels := by
  intro g
  have ran : g.executionLevels Enumeration.ascending = .ok [[0,1],[2]] :=
    Option.some.inj ((executionLevels_eq _ _).symm.trans rfl)
  exact ⟨ran,(executionLevels_refines _ _ ran).1⟩

theorem not_schedulable_iff :
    ¬ g.Schedulable ↔ (∃ t ∈ g.taskIds, g.dependencies t = none) ∨
      (∃ t ∈ g.taskIds, ∃ deps, g.dependencies t = some deps ∧ ∃ d ∈ deps, d ∉ g.taskIds) ∨
      ∃ t, Relation.TransGen g.DependsWithin t t := by
  constructor
  · intro stuck
    by_contra fine
    simp only [not_or,not_exists,not_and] at fine
    obtain ⟨present,closed,acyclic⟩ := fine
    refine stuck ⟨fun t id => ?_,acyclic⟩
    obtain ⟨deps,entry⟩ := Option.ne_none_iff_exists'.mp (present t id)
    exact ⟨deps,entry,fun d dep => by_contra fun outside => closed t id deps entry d dep outside⟩
  · rintro (⟨t,id,missing⟩ | ⟨t,id,deps,entry,d,dep,outside⟩ | ⟨t,cycle⟩) ⟨entries,acyclic⟩
    · obtain ⟨deps,entry,-⟩ := entries t id
      simp [missing] at entry
    · obtain ⟨deps',entry',inside⟩ := entries t id
      obtain rfl : deps' = deps := Option.some.inj (entry'.symm.trans entry)
      exact outside (inside dep)
    · exact acyclic t cycle

/-- The `while` loop exits within as many iterations as there are task ids, and it panics
exactly when a task id has no entry, depends on an id that is not a task id, or lies on a
cycle of depending (a self-dependency included); otherwise it returns normally. -/
theorem executionLevels_panics_iff :
    g.levelLoopFor e g.taskIds.card g.start = some (g.executionLevels e) ∧
    ((∃ p, g.executionLevels e = .error p) ↔ (∃ t ∈ g.taskIds, g.dependencies t = none) ∨
      (∃ t ∈ g.taskIds, ∃ deps, g.dependencies t = some deps ∧ ∃ d ∈ deps, d ∉ g.taskIds) ∨
      ∃ t, Relation.TransGen g.DependsWithin t t) := by
  refine ⟨g.executionLevels_eq e,?_⟩
  rw [← not_schedulable_iff,← executionLevels_ok_iff g e]
  cases g.executionLevels e <;> simp

/-- The first iteration visits every task id, so a missing entry panics before anything else. -/
theorem executionLevels_missingKey (missing : ∃ t ∈ g.taskIds, g.dependencies t = none) :
    g.executionLevels e = .error .missingKey := by
  obtain ⟨t,member,absent⟩ := missing
  rw [executionLevels,g.levelLoop_pending e (Finset.ne_empty_of_mem member),
    g.step_eq_missingKey e ⟨t,member,absent⟩]

/-- Which panic `execution_levels` ends with, whatever the iteration order: the map index
panic exactly when a task id has no entry; the cycle message exactly when every id has an
entry but a dependency lies outside the ids or the dependencies among them cycle; no other. -/
theorem executionLevels_panic_message :
    (g.executionLevels e = .error .missingKey ↔ ∃ t ∈ g.taskIds, g.dependencies t = none) ∧
    (g.executionLevels e = .error (.explicit "Circular dependency detected!") ↔
      (∀ t ∈ g.taskIds, g.dependencies t ≠ none) ∧
      ((∃ t ∈ g.taskIds, ∃ deps, g.dependencies t = some deps ∧ ∃ d ∈ deps, d ∉ g.taskIds) ∨
        ∃ t, Relation.TransGen g.DependsWithin t t)) ∧
    ∀ p, g.executionLevels e = .error p → p = .missingKey ∨ p = .explicit "Circular dependency detected!" := by
  have only := fun p (ran : g.executionLevels e = .error p) => g.levelLoop_error e g.start_invariant ran
  have present_of_ran : g.executionLevels e = .error (.explicit "Circular dependency detected!") →
      ∀ t ∈ g.taskIds, g.dependencies t ≠ none := fun ran t member absent => by
    rw [executionLevels_missingKey g e ⟨t,member,absent⟩] at ran
    cases ran
  refine ⟨⟨fun ran => ((only _ ran).resolve_right Panic.noConfusion).1,executionLevels_missingKey g e⟩,
    ⟨fun ran => ⟨present_of_ran ran,?_⟩,fun ⟨present,stuck⟩ => ?_⟩,fun p ran => (only p ran).imp_left And.right⟩
  · have broken : ¬ g.Schedulable := fun schedulable => by
      obtain ⟨levels,returned⟩ := (executionLevels_ok_iff g e).mpr schedulable
      rw [returned] at ran
      cases ran
    exact ((not_schedulable_iff g).mp broken).resolve_left fun ⟨t,member,absent⟩ =>
      present_of_ran ran t member absent
  · cases ran : g.executionLevels e with
    | ok levels => exact absurd ((executionLevels_ok_iff g e).mp ⟨levels,ran⟩) ((not_schedulable_iff g).mpr (.inr stuck))
    | error p =>
      rcases only p ran with ⟨⟨t,member,absent⟩,-⟩ | rfl
      · exact absurd absent (present t member)
      · rfl

end DependencyGraph

end ParallelDeterminism
