import ParallelDeterminism.Schedule
import Mathlib.Data.String.Basic

/-! `visualize`, the report of `dep_graph.rs`. A run of it is the text it writes to standard
output and how it ends. It indexes `self.tasks` by every key of the map and every id a
non-empty dependency set lists, then calls `execution_levels`, then indexes `self.tasks` by
every scheduled id. The `name` field the model's `Task` leaves out is passed as the list of
the tasks' names, and `{:?}` of one `&str` as a function. Every `HashSet` has its own
`RandomState`, so the set stored under each key has an iteration order of its own. -/
namespace ParallelDeterminism

/-- A printing computation: the text it writes to standard output, and its value or the panic
that stopped it. Text written before a panic stays written. -/
@[ext] structure Printing (α : Type) where
  out : String
  result : Except Panic α

namespace Printing

instance : Monad Printing where
  pure a := ⟨"",.ok a⟩
  bind p f := match p.result with
    | .ok a => ⟨p.out ++ (f a).out,(f a).result⟩
    | .error e => ⟨p.out,.error e⟩

/-- `print!` of a text. -/
def emit (text : String) : Printing Unit := ⟨text,.ok ()⟩

/-- A run of a call that ends as `result` without printing. -/
def lift (result : Except Panic α) : Printing α := ⟨"",result⟩

@[simp] theorem result_pure (a : α) : (pure a : Printing α).result = .ok a := rfl

@[simp] theorem result_emit (text : String) : (emit text).result = .ok () := rfl

@[simp] theorem result_lift (result : Except Panic α) : (lift result).result = result := rfl

@[simp] theorem result_bind (p : Printing α) (f : α → Printing β) :
    (p >>= f).result = p.result.bind fun a => (f a).result := by
  rcases p with ⟨out,_ | a⟩ <;> rfl

theorem bind_assoc (p : Printing α) (f : α → Printing β) (g : β → Printing γ) :
    p >>= f >>= g = p >>= fun a => f a >>= g := by
  rcases p with ⟨out,_ | a⟩
  · rfl
  · show (⟨out ++ (f a).out,(f a).result⟩ : Printing β) >>= g = ⟨out ++ (f a >>= g).out,(f a >>= g).result⟩
    rcases f a with ⟨out',_ | b⟩
    · rfl
    · exact Printing.ext (String.append_assoc _ _ _) rfl

instance : LawfulMonad Printing := LawfulMonad.mk' Printing
  (fun p => by rcases p with ⟨out,_ | a⟩ <;> [rfl; exact Printing.ext (String.append_empty out) rfl])
  (fun a f => Printing.ext (String.empty_append _) rfl)
  bind_assoc

theorem result_forM_eq_ok {l : List β} {f : β → Printing Unit} :
    (l.forM f).result = .ok () ↔ ∀ x ∈ l, (f x).result = .ok () := by
  induction l with
  | nil => simp [List.forM]
  | cons x l ih =>
    simp only [List.forM,result_bind,List.forall_mem_cons,← ih]
    cases (f x).result <;> simp [Except.bind]

theorem result_forM_eq_error {l : List β} {f : β → Printing Unit} {p : Panic}
    (failed : (l.forM f).result = .error p) : ∃ x ∈ l, (f x).result = .error p := by
  induction l with
  | nil => cases failed
  | cons x l ih =>
    simp only [List.forM,result_bind] at failed
    cases stepped : (f x).result with
    | error q =>
      simp only [stepped,Except.bind] at failed
      obtain rfl : q = p := by injection failed
      exact ⟨x,List.mem_cons_self x l,stepped⟩
    | ok u =>
      simp only [stepped,Except.bind] at failed
      obtain ⟨y,member,found⟩ := ih failed
      exact ⟨y,List.mem_cons_of_mem x member,found⟩

theorem result_mapM_eq_error {l : List β} {f : β → Printing γ} {p : Panic}
    (failed : (l.mapM f).result = .error p) : ∃ x ∈ l, (f x).result = .error p := by
  induction l with
  | nil => cases failed
  | cons x l ih =>
    simp only [List.mapM_cons,result_bind,result_pure] at failed
    cases stepped : (f x).result with
    | error q =>
      simp only [stepped,Except.bind] at failed
      obtain rfl : q = p := by injection failed
      exact ⟨x,List.mem_cons_self x l,stepped⟩
    | ok y =>
      cases rest : (l.mapM f).result with
      | error q =>
        simp only [stepped,rest,Except.bind] at failed
        obtain ⟨z,member,found⟩ := ih (rest.trans failed)
        exact ⟨z,List.mem_cons_of_mem x member,found⟩
      | ok ys =>
        simp only [stepped,rest,Except.bind,result_pure] at failed
        cases failed

theorem bind_emit_eq_ok (p : Printing α) (text : α → String) :
    (p >>= fun a => emit (text a)).result = .ok () ↔ ∃ a, p.result = .ok a := by
  rw [result_bind]
  cases p.result <;> simp [Except.bind]

theorem bind_emit_eq_error (p : Printing α) (text : α → String) {q : Panic} :
    (p >>= fun a => emit (text a)).result = .error q ↔ p.result = .error q := by
  rw [result_bind]
  cases p.result <;> simp [Except.bind]

theorem result_mapM_isOk_iff {l : List β} {f : β → Printing γ} :
    (∃ ys, (l.mapM f).result = .ok ys) ↔ ∀ x ∈ l, ∃ y, (f x).result = .ok y := by
  induction l with
  | nil => exact iff_of_true ⟨[],rfl⟩ fun _ member => absurd member (List.not_mem_nil _)
  | cons x l ih =>
    simp only [List.mapM_cons,result_bind,result_pure,List.forall_mem_cons,← ih]
    cases (f x).result <;> cases (l.mapM f).result <;> simp [Except.bind]

@[simp] theorem out_pure (a : α) : (pure a : Printing α).out = "" := rfl

@[simp] theorem out_emit (text : String) : (emit text).out = text := rfl

@[simp] theorem out_lift (result : Except Panic α) : (lift result).out = "" := rfl

theorem out_bind_of_ok {p : Printing α} {a : α} (f : α → Printing β) (ran : p.result = .ok a) :
    (p >>= f).out = p.out ++ (f a).out := by
  obtain ⟨out,result⟩ := p
  subst ran
  rfl

theorem out_bind_of_error {p : Printing α} {q : Panic} (f : α → Printing β) (failed : p.result = .error q) :
    (p >>= f).out = p.out := by
  obtain ⟨out,result⟩ := p
  subst failed
  rfl

theorem join_cons (text : String) (texts : List String) :
    String.join (text :: texts) = text ++ String.join texts := by
  simp only [String.join_eq,List.map_cons,List.flatten_cons]
  rfl

/-- A loop whose every pass writes one text and returns writes those texts one after another. -/
theorem out_forM_emit {l : List β} {f : β → Printing Unit} {text : β → String}
    (passes : ∀ x ∈ l, f x = emit (text x)) : (l.forM f).out = String.join (l.map text) := by
  induction l with
  | nil => rfl
  | cons x l ih =>
    rw [List.forM,passes x (List.mem_cons_self x l),out_bind_of_ok _ rfl,
      ih fun y member => passes y (List.mem_cons_of_mem x member),List.map_cons,join_cons]
    rfl

end Printing

namespace DependencyGraph

variable (g : DependencyGraph)

/-- The iteration order of the map `dependencies`: each key once. -/
structure Entries where
  visit : List TaskId
  nodup : visit.Nodup
  mem : ∀ t, t ∈ visit ↔ (g.dependencies t).isSome

/-- The message of indexing a `Vec` of length `len` at `index`. -/
def outOfBounds (len index : Nat) : Panic :=
  .explicit ("index out of bounds: the len is " ++ toString len ++ " but the index is " ++ toString index)

/-- `self.tasks[i].name`, `names` being the names of `self.tasks` in order. -/
def taskName (names : List String) (i : TaskId) : Printing String :=
  if i < g.tasks.length then pure names[i]! else Printing.lift (.error (outOfBounds g.tasks.length i))

/-- `{:?}` of a `Vec<&str>`, `debug` being `{:?}` of one `&str`. -/
def debugList (debug : String → String) (items : List String) : String :=
  "[" ++ ", ".intercalate (items.map debug) ++ "]"

/-- One pass of the first `for` loop: the line of one entry of the map. -/
def printEntry (names : List String) (debug : String → String) (sets : TaskId → Enumeration) (taskId : TaskId) :
    Printing Unit := do
  let name ← g.taskName names taskId
  Printing.emit ("Task " ++ name ++ ": ")
  match g.dependencies taskId with
  | none => pure ()
  | some deps =>
    if deps = ∅ then Printing.emit "no dependencies\n"
    else
      let depNames ← ((sets taskId).visit deps).mapM (g.taskName names)
      Printing.emit ("depends on " ++ debugList debug depNames ++ "\n")

/-- One pass of the second `for` loop: the line of level `levelNum`. -/
def printLevel (names : List String) (debug : String → String) (levelNum : Nat) (level : List TaskId) :
    Printing Unit := do
  let taskNames ← level.mapM (g.taskName names)
  Printing.emit ("Level " ++ toString levelNum ++ ": " ++ debugList debug taskNames ++ " (can run in parallel)\n")

/-- `sets t` is the iteration order of the dependency set stored under the key `t`, and `e`
that of `remaining` in `execution_levels`. -/
def visualize (names : List String) (debug : String → String) (entries : g.Entries) (sets : TaskId → Enumeration)
    (e : Enumeration) : Printing Unit := do
  Printing.emit "\n=== Dependency Graph ===\n"
  entries.visit.forM (g.printEntry names debug sets)
  Printing.emit "\n=== Execution Levels ===\n"
  let levels ← Printing.lift (g.executionLevels e)
  levels.enum.forM fun (levelNum, level) => g.printLevel names debug levelNum level

/-- Every key of the map, and every id its dependency sets list, is a position of `tasks`. -/
def Indexed : Prop :=
  ∀ t deps, g.dependencies t = some deps → t < g.tasks.length ∧ ∀ d ∈ deps, d < g.tasks.length

/-- The text the first loop writes for the key `taskId`, its names looked up. -/
def entryText (names : List String) (debug : String → String) (sets : TaskId → Enumeration) (taskId : TaskId) :
    String :=
  "Task " ++ names[taskId]! ++ ": " ++
    match g.dependencies taskId with
    | none => ""
    | some deps =>
      if deps = ∅ then "no dependencies\n"
      else "depends on " ++ debugList debug (((sets taskId).visit deps).map fun i => names[i]!) ++ "\n"

/-- The line the second loop writes for level `levelNum`, its names looked up. -/
def levelLine (names : List String) (debug : String → String) (levelNum : Nat) (level : List TaskId) : String :=
  "Level " ++ toString levelNum ++ ": " ++ debugList debug (level.map fun i => names[i]!) ++
    " (can run in parallel)\n"

variable {g} {names : List String} {debug : String → String} {sets : TaskId → Enumeration} {e : Enumeration}

theorem taskName_result (i : TaskId) :
    (g.taskName names i).result = if i < g.tasks.length then .ok names[i]! else .error (outOfBounds g.tasks.length i) := by
  unfold taskName
  split <;> rfl

theorem mapM_taskName_isOk {ids : List TaskId} :
    (∃ found, (ids.mapM (g.taskName names)).result = .ok found) ↔ ∀ i ∈ ids, i < g.tasks.length := by
  rw [Printing.result_mapM_isOk_iff]
  refine forall₂_congr fun i _ => ?_
  rw [taskName_result]
  split <;> simp [*]

theorem mapM_taskName_error {ids : List TaskId} {p : Panic} (failed : (ids.mapM (g.taskName names)).result = .error p) :
    ∃ i, g.tasks.length ≤ i ∧ p = outOfBounds g.tasks.length i := by
  obtain ⟨i,-,found⟩ := Printing.result_mapM_eq_error failed
  rw [taskName_result] at found
  split at found
  · cases found
  · exact ⟨i,Nat.le_of_not_lt ‹_›,(Except.error.inj found).symm⟩

theorem printEntry_isOk {t : TaskId} {deps : Finset TaskId} (entry : g.dependencies t = some deps) :
    (g.printEntry names debug sets t).result = .ok () ↔ t < g.tasks.length ∧ ∀ d ∈ deps, d < g.tasks.length := by
  unfold printEntry
  simp only [Printing.result_bind,Printing.result_emit,taskName_result,entry]
  by_cases within : t < g.tasks.length
  · simp only [within,if_true,Except.bind,true_and]
    split_ifs with empty
    · simp [empty]
    · rw [Printing.bind_emit_eq_ok,mapM_taskName_isOk]
      simp only [(sets t).mem]
  · simp [within,Except.bind]

theorem printEntry_error {t : TaskId} {p : Panic} (failed : (g.printEntry names debug sets t).result = .error p) :
    ∃ i, g.tasks.length ≤ i ∧ p = outOfBounds g.tasks.length i := by
  unfold printEntry at failed
  simp only [Printing.result_bind,Printing.result_emit,taskName_result] at failed
  by_cases within : t < g.tasks.length
  · simp only [within,if_true,Except.bind] at failed
    split at failed
    · cases failed
    · split_ifs at failed
      · cases failed
      · exact mapM_taskName_error ((Printing.bind_emit_eq_error _ _).mp failed)
  · simp only [within,if_false,Except.bind] at failed
    exact ⟨t,Nat.le_of_not_lt within,(Except.error.inj failed).symm⟩

theorem printLevel_isOk {levelNum : Nat} {level : List TaskId} :
    (g.printLevel names debug levelNum level).result = .ok () ↔ ∀ i ∈ level, i < g.tasks.length := by
  unfold printLevel
  rw [Printing.bind_emit_eq_ok,mapM_taskName_isOk]

theorem forM_printEntry_isOk (entries : g.Entries) :
    (entries.visit.forM (g.printEntry names debug sets)).result = .ok () ↔ g.Indexed := by
  rw [Printing.result_forM_eq_ok]
  constructor
  · intro fine t deps entry
    exact (printEntry_isOk entry).mp (fine t ((entries.mem t).mpr (by simp [entry])))
  · intro indexed t member
    obtain ⟨deps,entry⟩ := Option.isSome_iff_exists.mp ((entries.mem t).mp member)
    exact (printEntry_isOk entry).mpr (indexed t deps entry)

theorem taskName_of_lt {i : TaskId} (within : i < g.tasks.length) : g.taskName names i = pure names[i]! :=
  if_pos within

theorem mapM_taskName_of_lt {ids : List TaskId} (within : ∀ i ∈ ids, i < g.tasks.length) :
    ids.mapM (g.taskName names) = pure (ids.map fun i => names[i]!) := by
  induction ids with
  | nil => rfl
  | cons i ids ih =>
    rw [List.mapM_cons,taskName_of_lt (within i (List.mem_cons_self i ids)),pure_bind,
      ih fun j member => within j (List.mem_cons_of_mem i member),pure_bind,List.map_cons]

/-- On a key whose ids are positions, a pass of the first loop writes the key's text. -/
theorem printEntry_eq {t : TaskId} (within : t < g.tasks.length)
    (listed : ∀ deps, g.dependencies t = some deps → ∀ d ∈ deps, d < g.tasks.length) :
    g.printEntry names debug sets t = Printing.emit (g.entryText names debug sets t) := by
  unfold printEntry entryText
  rw [taskName_of_lt within,pure_bind]
  cases entry : g.dependencies t with
  | none => rfl
  | some deps =>
    dsimp only
    split_ifs
    · rfl
    · rw [mapM_taskName_of_lt fun i member => listed deps entry i (((sets t).mem deps i).mp member),pure_bind]
      rfl

theorem printLevel_eq {levelNum : Nat} {level : List TaskId} (within : ∀ i ∈ level, i < g.tasks.length) :
    g.printLevel names debug levelNum level = Printing.emit (levelLine names debug levelNum level) := by
  unfold printLevel levelLine
  rw [mapM_taskName_of_lt within,pure_bind]

/-- Every id `execution_levels` schedules is a key of the map, so on an indexed graph a
position: the level loop indexes only what the first loop has indexed. -/
theorem lt_length_of_scheduled (indexed : g.Indexed) {levels : List (List TaskId)}
    (ran : g.executionLevels e = .ok levels) {level : List TaskId} (member : level ∈ levels) {i : TaskId}
    (placed : i ∈ level) : i < g.tasks.length := by
  obtain ⟨final,valid,done,rfl⟩ := g.executionLevels_invariant e ran
  obtain ⟨deps,entry,-⟩ := (schedulable_of_final valid done).entries i
    ((mem_taskIds_iff_flatten valid done).mpr (List.mem_flatten.mpr ⟨level,member,placed⟩))
  exact (indexed i deps entry).1

theorem visualize_result_eq (entries : g.Entries) :
    (g.visualize names debug entries sets e).result =
      (entries.visit.forM (g.printEntry names debug sets)).result.bind fun _ =>
        (g.executionLevels e).bind fun levels =>
          (levels.enum.forM fun (levelNum, level) => g.printLevel names debug levelNum level).result := by
  simp only [visualize,Printing.result_bind,Printing.result_emit,Printing.result_lift]
  rfl

/-- `visualize` panics exactly when a key of the map, or an id one of its non-empty
dependency sets lists, is not a position of `tasks`, and then with an index out of bounds;
otherwise it ends as `execution_levels` does, with its panic if that panics: the level loop
indexes only ids the first loop has already indexed. -/
theorem visualize_panics (g : DependencyGraph) (names : List String) (debug : String → String)
    (entries : g.Entries) (sets : TaskId → Enumeration) (e : Enumeration) :
    (g.Indexed → (g.visualize names debug entries sets e).result = (g.executionLevels e).map fun _ => ()) ∧
    (¬ g.Indexed → ∃ i, g.tasks.length ≤ i ∧
      (g.visualize names debug entries sets e).result = .error (outOfBounds g.tasks.length i)) := by
  rw [visualize_result_eq]
  constructor
  · intro indexed
    rw [(forM_printEntry_isOk entries).mpr indexed]
    cases ran : g.executionLevels e with
    | error p => rfl
    | ok levels =>
      simp only [Except.bind,Except.map]
      exact Printing.result_forM_eq_ok.mpr fun ⟨levelNum,level⟩ member => printLevel_isOk.mpr
        fun i placed => lt_length_of_scheduled indexed ran (List.snd_mem_of_mem_enum member) placed
  · intro unindexed
    cases found : (entries.visit.forM (g.printEntry names debug sets)).result with
    | ok u => exact absurd ((forM_printEntry_isOk entries).mp found) unindexed
    | error p =>
      obtain ⟨t,-,failed⟩ := Printing.result_forM_eq_error found
      obtain ⟨i,beyond,rfl⟩ := printEntry_error failed
      exact ⟨i,beyond,rfl⟩

/-- What `visualize` writes on a graph whose keys and listed ids are positions: the first
header, the text of each key in the map's iteration order, the second header and, if
`execution_levels` returns, the line of each level in order, numbered from zero. -/
theorem visualize_out (g : DependencyGraph) (names : List String) (debug : String → String)
    (entries : g.Entries) (sets : TaskId → Enumeration) (e : Enumeration) (indexed : g.Indexed) :
    (g.visualize names debug entries sets e).out =
      "\n=== Dependency Graph ===\n" ++ String.join (entries.visit.map (g.entryText names debug sets)) ++
        "\n=== Execution Levels ===\n" ++
        match g.executionLevels e with
        | .ok levels => String.join (levels.enum.map fun (levelNum,level) => levelLine names debug levelNum level)
        | .error _ => "" := by
  have keys : ∀ t ∈ entries.visit, g.printEntry names debug sets t = Printing.emit (g.entryText names debug sets t) :=
    fun t key =>
      have ⟨deps,entry⟩ := Option.isSome_iff_exists.mp ((entries.mem t).mp key)
      printEntry_eq (indexed t deps entry).1 fun deps' entry' => (indexed t deps' entry').2
  unfold visualize
  rw [Printing.out_bind_of_ok _ rfl,Printing.out_bind_of_ok _ ((forM_printEntry_isOk entries).mpr indexed),
    Printing.out_bind_of_ok _ rfl,Printing.out_forM_emit keys]
  cases ran : g.executionLevels e with
  | error p =>
    rw [Printing.out_bind_of_error _ rfl]
    simp only [Printing.out_lift,Printing.out_emit,String.append_assoc,String.append_empty]
  | ok levels =>
    rw [Printing.out_bind_of_ok _ rfl]
    simp only [Printing.out_lift,Printing.out_emit,String.append_assoc,String.empty_append]
    congr 3
    exact Printing.out_forM_emit fun ⟨levelNum,level⟩ member => printLevel_eq fun i placed =>
      lt_length_of_scheduled indexed ran (List.snd_mem_of_mem_enum member) placed

/-- The positions in ascending order: one admissible iteration order of the map `from_tasks`
builds, which lets the model run. -/
def Entries.ascending (tasks : List Task) : (fromTasks tasks).Entries where
  visit := List.range tasks.length
  nodup := List.nodup_range _
  mem t := by simp [fromTasks_dependencies_eq,Option.isSome_iff_ne_none]

/-- `from_tasks` keys each task by its position and lists only earlier positions. -/
theorem indexed_fromTasks (tasks : List Task) : (fromTasks tasks).Indexed := fun t deps entry =>
  have within := lt_length_of_dependencies tasks entry
  ⟨within,fun d dep => (fromTasks_dependsOn_lt tasks t d ⟨deps,entry,dep⟩).trans within⟩

theorem visualize_out_scenario :
    let tasks : List Task := [⟨0,[],["x"]⟩,⟨1,[],["y"]⟩,⟨2,["x"],["z"]⟩]
    let names := ["A","B","C"]
    let debug := fun name => "\"" ++ name ++ "\""
    (fromTasks tasks).Indexed ∧
      ((fromTasks tasks).visualize names debug (Entries.ascending tasks) (fun _ => Enumeration.ascending)
          Enumeration.ascending).out =
        "\n=== Dependency Graph ===\n" ++
          String.join ((Entries.ascending tasks).visit.map ((fromTasks tasks).entryText names debug fun _ => Enumeration.ascending)) ++
          "\n=== Execution Levels ===\n" ++
          match (fromTasks tasks).executionLevels Enumeration.ascending with
          | .ok levels => String.join (levels.enum.map fun (levelNum,level) => levelLine names debug levelNum level)
          | .error _ => "" :=
  ⟨indexed_fromTasks _,visualize_out _ _ _ _ _ _ (indexed_fromTasks _)⟩

end DependencyGraph

end ParallelDeterminism
