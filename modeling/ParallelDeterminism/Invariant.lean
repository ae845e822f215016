import ParallelDeterminism.Leveling
import Mathlib.Data.List.GetD

/-! The invariant of the `while` loop of `execution_levels`, for every graph and every
iteration order: the levels list the completed ids once each, every dependency of a
placed task sits in an earlier level, and a task is placed one level after the last
level it still waited for. -/
namespace ParallelDeterminism

section Levels

variable (levels : List (List TaskId)) (level : List TaskId)

theorem mem_flatten_iff_getD {t : TaskId} : t ∈ levels.flatten ↔ ∃ k, t ∈ levels.getD k [] := by
  rw [List.mem_flatten]
  constructor
  · rintro ⟨l,member,inside⟩
    obtain ⟨k,found⟩ := List.mem_iff_getElem?.mp member
    exact ⟨k,by rwa [List.getD_eq_getElem?_getD,found]⟩
  · rintro ⟨k,member⟩
    rw [List.getD_eq_getElem?_getD] at member
    cases found : levels[k]? with
    | none => simp [found] at member
    | some l => exact ⟨l,List.mem_iff_getElem?.mpr ⟨k,found⟩,by simpa [found] using member⟩

theorem lt_length_of_mem_getD {t : TaskId} {k : Nat} (member : t ∈ levels.getD k []) : k < levels.length := by
  by_contra far
  rw [List.getD_eq_default _ _ (Nat.le_of_not_lt far)] at member
  simp at member

theorem getD_push (k : Nat) :
    (levels ++ [level]).getD k [] =
      if k < levels.length then levels.getD k [] else if k = levels.length then level else [] := by
  simp only [List.getD_eq_getElem?_getD,List.getElem?_append]
  rcases Nat.lt_trichotomy k levels.length with before | rfl | after
  · simp [before]
  · simp
  · simp only [after.not_lt,after.ne',if_false]
    rw [List.getElem?_eq_none (by simp; omega)]
    rfl

theorem mem_flatten_take {d : TaskId} {j k : Nat} (found : d ∈ levels.getD j []) (before : j < k) :
    d ∈ (levels.take k).flatten := by
  refine (mem_flatten_iff_getD _).mpr ⟨j,?_⟩
  rwa [List.getD_eq_getElem?_getD,List.getElem?_take,if_pos before,← List.getD_eq_getElem?_getD]

theorem mem_flatten_drop {d : TaskId} {j k : Nat} (found : d ∈ levels.getD j []) (after : k ≤ j) :
    d ∈ (levels.drop k).flatten := by
  refine (mem_flatten_iff_getD _).mpr ⟨j - k,?_⟩
  rwa [List.getD_eq_getElem?_getD,List.getElem?_drop,Nat.add_sub_cancel' after,← List.getD_eq_getElem?_getD]

theorem length_le_length_flatten (filled : ∀ l ∈ levels, l ≠ []) : levels.length ≤ levels.flatten.length := by
  induction levels with
  | nil => simp
  | cons l levels ih =>
    have head := List.length_pos.mpr (filled l (List.mem_cons_self _ _))
    have tail := ih fun l' member => filled l' (List.mem_cons_of_mem _ member)
    simp only [List.length_cons,List.flatten_cons,List.length_append]
    omega

end Levels

namespace DependencyGraph

variable (g : DependencyGraph) (e : Enumeration)

/-- Of the loop's locals at the head of every iteration. -/
structure Invariant (s : Leveling) : Prop where
  cover : s.completed ∪ s.remaining = g.taskIds
  disjoint : Disjoint s.completed s.remaining
  flatten : ∀ t, t ∈ s.levels.flatten ↔ t ∈ s.completed
  nodup : s.levels.flatten.Nodup
  nonempty : ∀ level ∈ s.levels, level ≠ []
  earlier : ∀ k t, t ∈ s.levels.getD k [] →
    ∃ deps, g.dependencies t = some deps ∧ ∀ d ∈ deps, ∃ j < k, d ∈ s.levels.getD j []
  late : ∀ k t, t ∈ s.levels.getD (k + 1) [] →
    ∃ deps, g.dependencies t = some deps ∧ ∃ d ∈ deps, d ∉ (s.levels.take k).flatten
  waiting : ∀ k, s.levels.length = k + 1 → ∀ t ∈ s.remaining,
    ∃ deps, g.dependencies t = some deps ∧ ∃ d ∈ deps, d ∉ (s.levels.take k).flatten

theorem start_invariant : g.Invariant g.start where
  cover := by simp [start]
  disjoint := by simp [start]
  flatten := by simp [start]
  nodup := by simp [start]
  nonempty := by simp [start]
  earlier := by simp [start]
  late := by simp [start]
  waiting := by simp [start]

section Step

variable {g e} {s : Leveling} (valid : g.Invariant s)
include valid

theorem push_earlier :
    ∀ k t, t ∈ (s.levels ++ [g.readyLevel e s]).getD k [] →
      ∃ deps, g.dependencies t = some deps ∧ ∀ d ∈ deps, ∃ j < k, d ∈ (s.levels ++ [g.readyLevel e s]).getD j [] := by
  intro k t member
  rw [getD_push] at member
  split_ifs at member with old new
  · obtain ⟨deps,entry,placed⟩ := valid.earlier k t member
    refine ⟨deps,entry,fun d dep => ?_⟩
    obtain ⟨j,before,found⟩ := placed d dep
    exact ⟨j,before,by rwa [getD_push,if_pos (before.trans old)]⟩
  · obtain ⟨-,ready⟩ := (g.mem_readyLevel e).mp member
    obtain ⟨deps,entry,done⟩ := (g.ready_eq_true).mp ready
    refine ⟨deps,entry,fun d dep => ?_⟩
    obtain ⟨j,found⟩ := (mem_flatten_iff_getD _).mp ((valid.flatten d).mpr (done dep))
    have before := lt_length_of_mem_getD _ found
    exact ⟨j,new ▸ before,by rwa [getD_push,if_pos before]⟩
  · simp at member

theorem push_late :
    ∀ k t, t ∈ (s.levels ++ [g.readyLevel e s]).getD (k + 1) [] →
      ∃ deps, g.dependencies t = some deps ∧ ∃ d ∈ deps, d ∉ ((s.levels ++ [g.readyLevel e s]).take k).flatten := by
  intro k t member
  rw [getD_push] at member
  split_ifs at member with old new
  · rw [List.take_append_of_le_length (by omega)]
    exact valid.late k t member
  · rw [List.take_append_of_le_length (by omega)]
    exact valid.waiting k new.symm t (g.readyLevel_subset e s t member)
  · simp at member

theorem push_waiting (entries : ∀ t ∈ s.remaining, (g.dependencies t).isSome) :
    ∀ k, (s.levels ++ [g.readyLevel e s]).length = k + 1 → ∀ t ∈ s.remaining \ (g.readyLevel e s).toFinset,
      ∃ deps, g.dependencies t = some deps ∧ ∃ d ∈ deps, d ∉ ((s.levels ++ [g.readyLevel e s]).take k).flatten := by
  intro k length t member
  obtain ⟨pending,unready⟩ := Finset.mem_sdiff.mp member
  have same : k = s.levels.length := by simp at length; omega
  subst same
  rw [List.take_left' rfl]
  obtain ⟨deps,entry⟩ := Option.isSome_iff_exists.mp (entries t pending)
  have blocked : ¬ deps ⊆ s.completed := fun done =>
    unready (List.mem_toFinset.mpr ((g.mem_readyLevel e).mpr ⟨pending,g.ready_eq_true.mpr ⟨deps,entry,done⟩⟩))
  obtain ⟨d,dep,undone⟩ := Finset.not_subset.mp blocked
  exact ⟨deps,entry,d,dep,fun placed => undone ((valid.flatten d).mp placed)⟩

end Step

/-- One iteration keeps the invariant. -/
theorem step_invariant {s next : Leveling} (valid : g.Invariant s) (stepped : g.step e s = .ok next) :
    g.Invariant next := by
  obtain ⟨entries,nonempty,rfl⟩ := (g.step_eq_ok e).mp stepped
  have inside := g.readyLevel_subset e s
  refine ⟨?_,?_,?_,?_,?_,push_earlier valid,push_late valid,push_waiting valid entries⟩
  · rw [Leveling.push_completed,Leveling.push_remaining,← valid.cover]
    ext t
    have := inside t
    simp only [Finset.mem_union,Finset.mem_sdiff,List.mem_toFinset]
    tauto
  · refine Finset.disjoint_left.mpr fun t placed pending => ?_
    simp only [Leveling.push_completed,Leveling.push_remaining,Finset.mem_union,Finset.mem_sdiff,
      List.mem_toFinset] at placed pending
    exact placed.elim (fun done => Finset.disjoint_left.mp valid.disjoint done pending.1) pending.2
  · intro t
    simp [valid.flatten]
  · simp only [Leveling.push_levels,List.flatten_append,List.flatten_singleton]
    exact List.nodup_append.mpr ⟨valid.nodup,g.readyLevel_nodup e s,fun t placed member =>
      Finset.disjoint_left.mp valid.disjoint ((valid.flatten t).mp placed) (inside t member)⟩
  · intro level member
    rcases List.mem_append.mp member with old | new
    · exact valid.nonempty level old
    · rw [List.mem_singleton.mp new]
      exact nonempty

/-- A run that returns normally ends in a state with the invariant and nothing remaining. -/
theorem levelLoop_invariant {s : Leveling} {levels : List (List TaskId)}
    (valid : g.Invariant s) (ran : g.levelLoop e s = .ok levels) :
    ∃ final : Leveling, g.Invariant final ∧ final.remaining = ∅ ∧ final.levels = levels := by
  induction s using levelLoop.induct g e with
  | case1 s done =>
    rw [g.levelLoop_done e done] at ran
    exact ⟨s,valid,done,Except.ok.inj ran⟩
  | case2 s pending p stepped =>
    rw [g.levelLoop_pending e pending,stepped] at ran
    cases ran
  | case3 s pending next stepped ih =>
    rw [g.levelLoop_pending e pending,stepped] at ran
    exact ih (g.step_invariant e valid stepped) ran

/-- A run that panics does so on a task id that has no entry, or with the cycle message. -/
theorem levelLoop_error {s : Leveling} {p : Panic} (valid : g.Invariant s) (ran : g.levelLoop e s = .error p) :
    ((∃ t ∈ g.taskIds, g.dependencies t = none) ∧ p = .missingKey) ∨
      p = .explicit "Circular dependency detected!" := by
  induction s using levelLoop.induct g e with
  | case1 s done =>
    rw [g.levelLoop_done e done] at ran
    cases ran
  | case2 s pending q stepped =>
    rw [g.levelLoop_pending e pending,stepped] at ran
    cases ran
    rcases g.step_eq_error e stepped with ⟨⟨t,member,missing⟩,rfl⟩ | ⟨-,rfl⟩
    exacts [.inl ⟨⟨t,valid.cover ▸ Finset.mem_union_right _ member,missing⟩,rfl⟩,.inr rfl]
  | case3 s pending next stepped ih =>
    rw [g.levelLoop_pending e pending,stepped] at ran
    exact ih (g.step_invariant e valid stepped) ran

theorem executionLevels_eq : g.levelLoopFor e g.taskIds.card g.start = some (g.executionLevels e) :=
  g.levelLoopFor_eq e (le_refl _)

theorem executionLevels_invariant {levels : List (List TaskId)} (ran : g.executionLevels e = .ok levels) :
    ∃ final : Leveling, g.Invariant final ∧ final.remaining = ∅ ∧ final.levels = levels :=
  g.levelLoop_invariant e g.start_invariant ran

end DependencyGraph

end ParallelDeterminism
