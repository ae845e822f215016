import Mathlib.Data.List.Sort

/-! The word workflow `tokio_executor` and `commonware_executor` of `lib.rs` run: a selector
task pushes five seeded word choices onto a shared `RwLock<Vec<String>>`, and a counter task,
five times, counts the occurrences of the last word pushed. The two runtimes differ only in
which interleaving they pick, so a schedule says which task takes the next step. A step is
one action between two `.await`s: the selector's `select_random_word` (with its line), its
`push` under the write lock, or one pass of the counter, which holds the read lock while it
counts and prints. The `sleep`s only yield. -/
namespace ParallelDeterminism.Workflow

/-- `words.choose(&mut StdRng::seed_from_u64(seed))` of the `rand` crate: `none` exactly on an
empty slice, otherwise one of its words. -/
structure Chooser where
  choose : Nat → List String → Option String
  mem : ∀ seed words w, choose seed words = some w → w ∈ words
  none_iff : ∀ seed words, choose seed words = none ↔ words = []

/-- The word at the seed modulo the length: one admissible choice, which lets the model run. -/
def Chooser.modulo : Chooser where
  choose seed words := words[seed % words.length]?
  mem _ _ _ found := List.getElem?_mem found
  none_iff seed words := by
    rw [List.getElem?_eq_none_iff]
    constructor
    · intro outside
      by_contra nonempty
      exact Nat.not_le_of_lt (Nat.mod_lt seed (List.length_pos.mpr nonempty)) outside
    · rintro rfl
      exact Nat.zero_le _

/-- `rand_seed`. -/
def randSeed : List Nat := [12345,67890,54321,98765,11111]

/-- `count_word_occurrences`: `words.iter().filter(|&w| w == word).count()`. -/
def countWordOccurrences (word : String) (words : List String) : Nat :=
  (words.filter (· == word)).length

def selectLine (word : String) : String := "Selected word is: " ++ word

def countLine (word : String) (count : Nat) : String :=
  "The word \x27" ++ word ++ "\x27 appears " ++ toString count ++ " times in the file."

def skipLine : String := "No word selected yet, skipping count."

inductive Worker where
  | selector
  | counter
  deriving DecidableEq, Repr

/-- The shared vector, each task's place in its loop, and the lines printed so far, each
with the task that printed it. -/
structure State where
  selected : List String
  /-- The word `select_random_word` returned and the selector has not pushed yet. -/
  chosen : Option String
  selections : Nat
  passes : Nat
  /-- The selector panicked in `unwrap` on an empty corpus. -/
  crashed : Bool
  out : List (Worker × String)

def start : State := ⟨[],none,0,0,false,[]⟩

variable (chooser : Chooser) (words : List String)

/-- One step of the selector: push the word it holds, or choose the next one. -/
def selectorStep (s : State) : State :=
  if s.crashed then s else
  match s.chosen with
  | some word => { s with selected := s.selected ++ [word], chosen := none }
  | none =>
    match randSeed[s.selections]? with
    | none => s
    | some seed =>
      match chooser.choose seed words with
      | none => { s with crashed := true }
      | some word =>
        { s with chosen := some word, selections := s.selections + 1,
                 out := s.out ++ [(.selector,selectLine word)] }

/-- One pass of the counter's loop. -/
def counterStep (s : State) : State :=
  if s.passes < 5 then
    { s with passes := s.passes + 1,
             out := s.out ++ [(.counter,match s.selected.getLast? with
               | some word => countLine word (countWordOccurrences word words)
               | none => skipLine)] }
  else s

def step : Worker → State → State
  | .selector => selectorStep chooser words
  | .counter => counterStep words

def execute : List Worker → State → State
  | [], s => s
  | worker :: schedule, s => execute schedule (step chooser words worker s)

/-- The lines `who` printed, in order. -/
def linesOf (who : Worker) (out : List (Worker × String)) : List String :=
  (out.filter fun line => line.1 = who).map (·.2)

@[simp] theorem linesOf_append_same (who : Worker) (out : List (Worker × String)) (line : String) :
    linesOf who (out ++ [(who,line)]) = linesOf who out ++ [line] := by
  simp [linesOf]

@[simp] theorem linesOf_append_other {who other : Worker} (apart : other ≠ who) (out : List (Worker × String))
    (line : String) : linesOf who (out ++ [(other,line)]) = linesOf who out := by
  simp [linesOf,apart]

/-- The word the selector chooses with the `i`-th seed. -/
def word (i : Nat) : String := (chooser.choose randSeed[i]! words).getD ""

/-- The line a counter pass prints after `k` pushes. -/
def observation : Nat → String
  | 0 => skipLine
  | k + 1 => countLine (word chooser words k) (countWordOccurrences (word chooser words k) words)

@[simp] theorem randSeed_length : randSeed.length = 5 := rfl

/-- What holds after every interleaving, on a non-empty corpus: the vector and the word in
hand are the words chosen so far in seed order, the selector printed exactly those, and the
counter printed one line per pass. -/
structure Invariant (s : State) : Prop where
  alive : s.crashed = false
  bounded : s.selections ≤ randSeed.length
  pushed : s.selected ++ s.chosen.toList = (List.range s.selections).map (word chooser words)
  selectorLines : linesOf .selector s.out = (List.range s.selections).map fun i => selectLine (word chooser words i)
  counted : s.passes ≤ 5
  counterLines : (linesOf .counter s.out).length = s.passes

theorem start_invariant : Invariant chooser words start :=
  ⟨rfl,by decide,rfl,rfl,by decide,rfl⟩

variable {chooser words}

theorem choose_word (nonempty : words ≠ []) (i : Nat) :
    chooser.choose randSeed[i]! words = some (word chooser words i) := by
  cases chosen : chooser.choose randSeed[i]! words with
  | none => exact absurd ((chooser.none_iff _ _).mp chosen) nonempty
  | some w => simp [word,chosen]

/-- The vector alone: the first words chosen, in seed order. -/
theorem Invariant.selected_eq {s : State} (valid : Invariant chooser words s) :
    s.selected = (List.range s.selected.length).map (word chooser words) := by
  have leading := valid.pushed ▸ List.prefix_append s.selected s.chosen.toList
  have within : s.selected.length ≤ s.selections := by
    simpa using leading.length_le
  rw [List.prefix_iff_eq_take.mp leading,← List.map_take,List.take_range,Nat.min_eq_left within]
  simp

/-- A counter pass prints the observation of the number of words pushed so far. -/
theorem Invariant.counterLine {s : State} (valid : Invariant chooser words s) :
    (match s.selected.getLast? with
      | some word => countLine word (countWordOccurrences word words)
      | none => skipLine) = observation chooser words s.selected.length := by
  rw [valid.selected_eq]
  cases s.selected.length with
  | zero => rfl
  | succ k => simp [List.range_succ,observation]

/-- What one step of the selector does, from a state of a run. -/
theorem selectorStep_cases (nonempty : words ≠ []) {s : State} (valid : Invariant chooser words s) :
    (∃ w, s.chosen = some w ∧ selectorStep chooser words s = { s with selected := s.selected ++ [w], chosen := none }) ∨
    (s.chosen = none ∧ s.selections < 5 ∧ selectorStep chooser words s =
      { s with chosen := some (word chooser words s.selections), selections := s.selections + 1,
               out := s.out ++ [(.selector,selectLine (word chooser words s.selections))] }) ∨
    (s.chosen = none ∧ s.selections = 5 ∧ selectorStep chooser words s = s) := by
  unfold selectorStep
  rw [valid.alive,if_neg Bool.false_ne_true]
  cases held : s.chosen with
  | some w => exact .inl ⟨w,rfl,rfl⟩
  | none =>
    have bounded := valid.bounded
    rw [randSeed_length] at bounded
    rcases Nat.lt_or_eq_of_le bounded with below | full
    · rw [List.getElem?_eq_getElem (by simpa using below),← getElem!_pos randSeed _ (by simpa using below)]
      dsimp only
      rw [choose_word nonempty]
      exact .inr (.inl ⟨rfl,below,rfl⟩)
    · rw [full]
      exact .inr (.inr ⟨rfl,rfl,rfl⟩)

/-- The selector prints only selector lines. -/
theorem linesOf_counter_selectorStep (s : State) :
    linesOf .counter (selectorStep chooser words s).out = linesOf .counter s.out := by
  unfold selectorStep
  split_ifs <;> repeat' split
  all_goals simp

theorem selectorStep_invariant (nonempty : words ≠ []) {s : State} (valid : Invariant chooser words s) :
    Invariant chooser words (selectorStep chooser words s) := by
  have pushed := valid.pushed
  rcases selectorStep_cases nonempty valid with ⟨w,held,stepped⟩ | ⟨held,below,stepped⟩ | ⟨-,-,stepped⟩
  · rw [stepped]
    rw [held] at pushed
    exact ⟨valid.alive,valid.bounded,by simpa using pushed,valid.selectorLines,valid.counted,valid.counterLines⟩
  · rw [stepped]
    rw [held] at pushed
    refine ⟨valid.alive,below,?_,?_,valid.counted,by simpa using valid.counterLines⟩
    · simpa [List.range_succ] using pushed
    · simp [List.range_succ,valid.selectorLines]
  · rw [stepped]
    exact valid

/-- A pass of the counter, one of its first five, prints the observation of the pushes done
so far: the count of the last word pushed, or the skip line. -/
theorem linesOf_counter_counterStep {s : State} (valid : Invariant chooser words s) :
    linesOf .counter (counterStep words s).out =
      linesOf .counter s.out ++ if s.passes < 5 then [observation chooser words s.selected.length] else [] := by
  unfold counterStep
  split_ifs
  · rw [linesOf_append_same,valid.counterLine]
  · rw [List.append_nil]

theorem counterStep_invariant {s : State} (valid : Invariant chooser words s) :
    Invariant chooser words (counterStep words s) := by
  unfold counterStep
  split_ifs with fresh
  · exact ⟨valid.alive,valid.bounded,valid.pushed,by simpa using valid.selectorLines,fresh,
      by simp [valid.counterLines]⟩
  · exact valid

theorem step_invariant (nonempty : words ≠ []) {s : State} (valid : Invariant chooser words s) :
    ∀ worker, Invariant chooser words (step chooser words worker s)
  | .selector => selectorStep_invariant nonempty valid
  | .counter => counterStep_invariant valid

theorem execute_invariant (nonempty : words ≠ []) (schedule : List Worker) {s : State}
    (valid : Invariant chooser words s) : Invariant chooser words (execute chooser words schedule s) := by
  induction schedule generalizing s with
  | nil => exact valid
  | cons worker schedule ih => exact ih (step_invariant nonempty valid worker)

/-- The counter's lines over a run: one for each counter step among its first five, the
observation of the pushes done before that step. -/
theorem execute_counterLines (nonempty : words ≠ []) (schedule : List Worker) {s : State}
    (valid : Invariant chooser words s) :
    linesOf .counter (execute chooser words schedule s).out = linesOf .counter s.out ++
      ((List.range schedule.length).filter fun n =>
          schedule[n]? = some .counter ∧ (execute chooser words (schedule.take n) s).passes < 5).map
        fun n => observation chooser words (execute chooser words (schedule.take n) s).selected.length := by
  induction schedule generalizing s with
  | nil => simp [execute]
  | cons worker schedule ih =>
    rw [execute,ih (step_invariant nonempty valid worker),List.length_cons,List.range_succ_eq_map]
    cases worker
    · simp [step,linesOf_counter_selectorStep,List.filter_cons,List.filter_map,Function.comp_def,execute]
    · by_cases fresh : s.passes < 5 <;>
        simp [step,linesOf_counter_counterStep valid,fresh,List.filter_cons,List.filter_map,Function.comp_def,execute]

theorem Invariant.length_add {s : State} (valid : Invariant chooser words s) :
    s.selected.length + s.chosen.toList.length = s.selections := by
  simpa using congrArg List.length valid.pushed

@[simp] theorem selectorStep_passes (s : State) : (selectorStep chooser words s).passes = s.passes := by
  unfold selectorStep
  split_ifs <;> repeat' split
  all_goals rfl

@[simp] theorem counterStep_selected (s : State) : (counterStep words s).selected = s.selected := by
  unfold counterStep
  split_ifs <;> rfl

@[simp] theorem counterStep_selections (s : State) : (counterStep words s).selections = s.selections := by
  unfold counterStep
  split_ifs <;> rfl

theorem counterStep_passes {s : State} (counted : s.passes ≤ 5) :
    (counterStep words s).passes = min 5 (s.passes + 1) := by
  unfold counterStep
  split_ifs with fresh
  · show s.passes + 1 = min 5 (s.passes + 1)
    omega
  · omega

/-- The counter's loop runs five passes and stops, whatever the selector does. -/
theorem execute_passes (schedule : List Worker) {s : State} (counted : s.passes ≤ 5) :
    (execute chooser words schedule s).passes = min 5 (s.passes + schedule.count .counter) := by
  induction schedule generalizing s with
  | nil =>
    rw [execute,List.count_nil,Nat.add_zero]
    omega
  | cons worker schedule ih =>
    cases worker
    · rw [execute,step,ih (by simpa using counted),selectorStep_passes,
        List.count_cons_of_ne (by decide : Worker.counter ≠ Worker.selector)]
    · have passed : (counterStep words s).passes = min 5 (s.passes + 1) := counterStep_passes counted
      rw [execute,step,ih (passed ▸ Nat.min_le_left _ _),passed,List.count_cons_self]
      omega

/-- Every selector step moves it one action on, until its ten actions are done. -/
theorem selectorStep_progress (nonempty : words ≠ []) {s : State} (valid : Invariant chooser words s) :
    (selectorStep chooser words s).selected.length + (selectorStep chooser words s).selections =
      min 10 (s.selected.length + s.selections + 1) := by
  have sum := valid.length_add
  have bounded := valid.bounded
  rw [randSeed_length] at bounded
  rcases selectorStep_cases nonempty valid with ⟨w,held,stepped⟩ | ⟨held,below,stepped⟩ | ⟨held,full,stepped⟩ <;>
    rw [stepped] <;> simp only [held,Option.toList_some,Option.toList_none,List.length_singleton,
      List.length_nil,List.length_append] at sum ⊢ <;> omega

theorem execute_progress (nonempty : words ≠ []) (schedule : List Worker) {s : State}
    (valid : Invariant chooser words s) :
    (execute chooser words schedule s).selected.length + (execute chooser words schedule s).selections =
      min 10 (s.selected.length + s.selections + schedule.count .selector) := by
  induction schedule generalizing s with
  | nil =>
    have := valid.length_add
    have := valid.bounded
    simp only [execute,List.count_nil,Nat.add_zero,randSeed_length] at *
    omega
  | cons worker schedule ih =>
    cases worker
    · rw [execute,step,ih (selectorStep_invariant nonempty valid),selectorStep_progress nonempty valid,
        List.count_cons_self]
      omega
    · rw [execute,step,ih (counterStep_invariant valid),counterStep_selected,counterStep_selections,
        List.count_cons_of_ne (by decide : Worker.selector ≠ Worker.counter)]

theorem countWordOccurrences_pos {w : String} (member : w ∈ words) : 0 < countWordOccurrences w words :=
  List.length_pos.mpr (List.ne_nil_of_mem (List.mem_filter.mpr ⟨member,beq_self_eq_true w⟩))

theorem execute_append (first second : List Worker) (s : State) :
    execute chooser words (first ++ second) s = execute chooser words second (execute chooser words first s) := by
  induction first generalizing s with
  | nil => rfl
  | cons worker first ih => exact ih _

theorem selected_prefix_selectorStep (s : State) : s.selected <+: (selectorStep chooser words s).selected := by
  unfold selectorStep
  split_ifs
  · exact List.prefix_refl _
  · split
    · exact List.prefix_append _ _
    · repeat' split
      all_goals exact List.prefix_refl _

/-- The vector only grows, at its end: no push is ever undone or reordered. -/
theorem selected_prefix_execute (schedule : List Worker) (s : State) :
    s.selected <+: (execute chooser words schedule s).selected := by
  induction schedule generalizing s with
  | nil => exact List.prefix_refl _
  | cons worker schedule ih =>
    refine List.IsPrefix.trans ?_ (ih _)
    cases worker
    · exact selected_prefix_selectorStep s
    · show s.selected <+: (counterStep words s).selected
      exact counterStep_selected s ▸ List.prefix_refl _

/-- The word workflow under any interleaving the runtime picks, on a non-empty corpus: the
vector, with the word chosen and not yet pushed, is the words chosen so far in seed order, so
no push is lost, repeated or reordered, and over the run it only grows at its end; the
selector prints its choices in seed order; the counter prints one line for each of its first
five steps, the count of the last word pushed before that step, or the skip line while none
is, and every count it prints is positive; once the selector has had ten steps the vector
holds the five seeded words. -/
theorem execute_workflow (nonempty : words ≠ []) (schedule : List Worker) :
    let s := execute chooser words schedule start
    s.selected ++ s.chosen.toList = (List.range s.selections).map (word chooser words) ∧
    (∀ m n, m ≤ n → (execute chooser words (schedule.take m) start).selected <+:
      (execute chooser words (schedule.take n) start).selected) ∧
    linesOf .selector s.out = (List.range s.selections).map (fun i => selectLine (word chooser words i)) ∧
    linesOf .counter s.out =
      ((List.range schedule.length).filter fun n =>
          schedule[n]? = some .counter ∧ (execute chooser words (schedule.take n) start).passes < 5).map
        (fun n => observation chooser words (execute chooser words (schedule.take n) start).selected.length) ∧
    (∀ i, 0 < countWordOccurrences (word chooser words i) words) ∧
    (10 ≤ schedule.count .selector → s.selected = (List.range 5).map (word chooser words)) ∧
    (linesOf .counter s.out).length = min 5 (schedule.count .counter) := by
  dsimp only
  have valid := execute_invariant nonempty schedule (start_invariant chooser words)
  have progress := execute_progress nonempty schedule (start_invariant chooser words)
  have passes := @execute_passes chooser words schedule start (Nat.zero_le _)
  rw [show start.selected.length + start.selections = 0 from rfl,Nat.zero_add] at progress
  rw [show start.passes = 0 from rfl,Nat.zero_add] at passes
  refine ⟨valid.pushed,fun m n le => ?_,valid.selectorLines,?_,fun i => ?_,fun enough => ?_,?_⟩
  · rw [← List.take_append_drop m (schedule.take n),List.take_take,Nat.min_eq_left le,execute_append]
    exact selected_prefix_execute _ _
  · simpa using execute_counterLines nonempty schedule (start_invariant chooser words)
  · exact countWordOccurrences_pos (chooser.mem _ _ _ (choose_word nonempty i))
  · have sum := valid.length_add
    have bounded := valid.bounded
    rw [randSeed_length] at bounded
    have full : (execute chooser words schedule start).selected.length = 5 := by omega
    rw [valid.selected_eq,full]
  · rw [valid.counterLines,passes]

theorem execute_workflow_scenario :
    ["a","b","a"] ≠ [] ∧
    let schedule : List Worker := [.counter,.selector,.selector,.counter,.selector]
    let s := execute Chooser.modulo ["a","b","a"] schedule start
    s.selected ++ s.chosen.toList = (List.range s.selections).map (word Chooser.modulo ["a","b","a"]) ∧
    (∀ m n, m ≤ n → (execute Chooser.modulo ["a","b","a"] (schedule.take m) start).selected <+:
      (execute Chooser.modulo ["a","b","a"] (schedule.take n) start).selected) ∧
    linesOf .selector s.out = (List.range s.selections).map (fun i => selectLine (word Chooser.modulo ["a","b","a"] i)) ∧
    linesOf .counter s.out =
      ((List.range schedule.length).filter fun n =>
          schedule[n]? = some .counter ∧ (execute Chooser.modulo ["a","b","a"] (schedule.take n) start).passes < 5).map
        (fun n => observation Chooser.modulo ["a","b","a"]
          (execute Chooser.modulo ["a","b","a"] (schedule.take n) start).selected.length) ∧
    (∀ i, 0 < countWordOccurrences (word Chooser.modulo ["a","b","a"] i) ["a","b","a"]) ∧
    (10 ≤ schedule.count .selector → s.selected = (List.range 5).map (word Chooser.modulo ["a","b","a"])) ∧
    (linesOf .counter s.out).length = min 5 (schedule.count .counter) :=
  ⟨by decide,execute_workflow (by decide) _⟩

end ParallelDeterminism.Workflow
