import FairShare.Scheduler.Run

/-!
# The books of a pool

What the theory of the scheduler looks at in a pool: the run queue, the running list, where each executor
stands, which slices the workers have published, what the threads still have to do, and those events of the
history from which the fate of an executor can be told. Most instructions leave the books alone; the
lemmas of this module say so for each operation that they are made of, and say what the others change.
-/

namespace FairShare.Scheduler

variable {n : Nat}

/-- An event in the fate of one executor. -/
inductive Mark where
  /-- A submit of it was answered with success. -/
  | accepted
  /-- A submit of it was refused. -/
  | refused
  /-- It was put into the run queue. -/
  | pushed
  /-- A worker took it from the run queue. -/
  | taken
  /-- Its stay on a worker ended. -/
  | settled
  /-- The host was told that it is unloaded. -/
  | unloaded
  /-- The metrics context was told that it is unloaded. -/
  | announced
  deriving DecidableEq

/-- The executor whose fate an event belongs to, and what it means for it. -/
def Event.fate? : Event n → Option (Fin n × Mark)
  | .submitted e (.ok _) => some (e, .accepted)
  | .submitted e (.error _) => some (e, .refused)
  | .queued e => some (e, .pushed)
  | .taken e _ => some (e, .taken)
  | .settled e _ => some (e, .settled)
  | .called e .unload => some (e, .unloaded)
  | .announced e => some (e, .announced)
  | _ => none

/-- What an event means for an executor. -/
def Event.mark? (e : Fin n) (v : Event n) : Option Mark :=
  match v.fate? with
  | some (e', m) => if e' = e then some m else none
  | none => none

/-- The events that mean something for an executor. -/
def Mark.Of (e : Fin n) : Mark → Event n → Prop
  | .accepted, v => v = .submitted e (.ok ())
  | .refused, v => ∃ err, v = .submitted e (.error err)
  | .pushed, v => v = .queued e
  | .taken, v => ∃ w, v = .taken e w
  | .settled, v => ∃ stage, v = .settled e stage
  | .unloaded, v => v = .called e .unload
  | .announced, v => v = .announced e

theorem Event.mark?_eq_some {e : Fin n} {v : Event n} {m : Mark} : v.mark? e = some m ↔ m.Of e v := by
  have hfate : v.mark? e = some m ↔ v.fate? = some (e, m) := by
    unfold mark?
    cases h : v.fate? with
    | none => simp
    | some x =>
      obtain ⟨e', m'⟩ := x
      by_cases he : e' = e <;> simp [he]
  rw [hfate]
  cases v with
  | submitted e' r => cases r <;> cases m <;> simp [fate?, Mark.Of]
  | called e' callback => cases callback <;> cases m <;> simp [fate?, Mark.Of]
  | _ => cases m <;> simp [fate?, Mark.Of]

theorem Event.marks_split {e : Fin n} {v : Event n} {m : Mark} (hv : m.Of e v) (before after : List (Event n)) :
    (before ++ v :: after).filterMap (mark? e) =
      before.filterMap (mark? e) ++ m :: after.filterMap (mark? e) := by
  rw [List.filterMap_append, List.filterMap_cons_some (mark?_eq_some.2 hv)]

theorem Event.count_marks (history : List (Event n)) (e : Fin n) (m : Mark) :
    (history.filterMap (mark? e)).count m = history.countP fun v => v.mark? e = some m := by
  rw [List.count_filterMap]
  refine List.countP_congr fun v _ => ?_
  simp

/-- Whether an event reports a fault of the scheduler itself. -/
def Event.isFault : Event n → Bool
  | .reported (.impossibleStage _ _) | .reported (.notQueued _ _) => true
  | _ => false

/-- What the theory looks at in a pool. -/
@[ext] structure Books (n : Nat) where
  /-- The phase. -/
  phase : Phase
  /-- The run queue. -/
  queue : List (Entry n)
  /-- The executors that are on a worker. -/
  running : List (Fin n)
  /-- Where each executor stands. -/
  stage : Fin n → Stage
  /-- Whether the host was told that an executor is unloaded. -/
  unloaded : Fin n → Bool
  /-- The virtual runtime of each executor. -/
  runtime : Fin n → Nat
  /-- The fate of each executor. -/
  marks : Fin n → List Mark
  /-- The faults that were reported. -/
  faults : List (Event n)
  /-- The slice that each worker has published. -/
  current : List (Option (Fin n))
  /-- Which workers are not retired. -/
  live : List Bool
  /-- What each thread still has to do. -/
  codes : List (List (Instr n))

namespace Books

/-- Moves an executor to a stage. -/
@[simp] def setStage (b : Books n) (e : Fin n) (stage : Stage) : Books n :=
  { b with stage := fun e' => if e' = e then stage else b.stage e' }

/-- Adds to the fate of an executor. -/
@[simp] def mark (b : Books n) (e : Fin n) (m : Mark) : Books n :=
  { b with marks := fun e' => b.marks e' ++ if e' = e then [m] else [] }

end Books

namespace Pool

/-- The books of a pool. -/
def books (s : Pool n) : Books n where
  phase := s.phase
  queue := s.queue
  running := s.running
  stage e := (s.executor e).stage
  unloaded e := (s.executor e).unloaded
  runtime e := (s.executor e).runtime
  marks e := s.history.toList.filterMap (Event.mark? e)
  faults := s.history.toList.filter Event.isFault
  current := s.workers.map (·.current)
  live := s.workers.map (·.live)
  codes := s.threads.map (·.code)

theorem executor_modify_eq (s : Pool n) (e e' : Fin n) (f : Executor → Executor) :
    (s.modify e f).executor e' = if e' = e then f (s.executor e) else s.executor e' := by
  by_cases h : e' = e
  · subst h; simp
  · rw [executor_modify_of_ne s f (Ne.symm h), if_neg h]

/-! ## Events -/

theorem books_emit (s : Pool n) (v : Event n) :
    (s.emit v).books =
      { s.books with
        marks := fun e => s.books.marks e ++ (v.mark? e).toList
        faults := s.books.faults ++ if v.isFault then [v] else [] } := by
  have hm : ∀ e, (s.emit v).books.marks e = s.books.marks e ++ (v.mark? e).toList := by
    intro e
    cases h : v.mark? e <;> simp [books, emit, h]
  have hf : (s.emit v).books.faults = s.books.faults ++ if v.isFault then [v] else [] := by
    cases h : v.isFault <;> simp [books, emit, h]
  rw [← funext hm, ← hf]
  rfl

/-- An event that is no executor's fate and no fault leaves the books alone. -/
theorem books_emit_plain (s : Pool n) {v : Event n} (hv : v.fate? = none) (hf : v.isFault = false) :
    (s.emit v).books = s.books := by
  have hm : ∀ e, v.mark? e = none := fun e => by simp [Event.mark?, hv]
  rw [books_emit]
  simp [hm, hf]

/-- An event in the fate of an executor is added to it. -/
theorem books_emit_mark (s : Pool n) {v : Event n} {e : Fin n} {m : Mark}
    (hv : v.fate? = some (e, m)) (hf : v.isFault = false) :
    (s.emit v).books = s.books.mark e m := by
  have hm : ∀ e', (v.mark? e').toList = if e' = e then [m] else [] := by
    intro e'
    by_cases he : e = e'
    · simp [Event.mark?, hv, he]
    · simp [Event.mark?, hv, he, Ne.symm he]
  rw [books_emit]
  simp [hm, hf]

@[simp] theorem books_foldl_metrics (s : Pool n) (notes : List Metrics.Note) :
    (notes.foldl (fun s note => s.emit (.metrics note)) s).books = s.books := by
  induction notes generalizing s with
  | nil => rfl
  | cons note notes ih =>
    rw [List.foldl_cons, ih]
    exact books_emit_plain s rfl rfl

/-! ## Executors -/

/-- A change of an executor that keeps its stage, its virtual runtime and whether it is unloaded. -/
theorem books_modify (s : Pool n) (e : Fin n) {f : Executor → Executor}
    (hs : ∀ x, (f x).stage = x.stage) (hu : ∀ x, (f x).unloaded = x.unloaded)
    (hr : ∀ x, (f x).runtime = x.runtime) : (s.modify e f).books = s.books := by
  have hx : ∀ e', ((s.modify e f).executor e').stage = (s.executor e').stage ∧
      ((s.modify e f).executor e').unloaded = (s.executor e').unloaded ∧
      ((s.modify e f).executor e').runtime = (s.executor e').runtime := by
    intro e'
    rw [executor_modify_eq]
    split
    · subst_vars; exact ⟨hs _, hu _, hr _⟩
    · exact ⟨rfl, rfl, rfl⟩
  apply Books.ext
  all_goals first | rfl | skip
  · exact funext fun e' => (hx e').1
  · exact funext fun e' => (hx e').2.1
  · exact funext fun e' => (hx e').2.2

@[simp] theorem books_modifyTimeout (s : Pool n) (e : Fin n) (f : TimeoutState → TimeoutState) :
    (s.modifyTimeout e f).books = s.books :=
  books_modify s e (fun _ => rfl) (fun _ => rfl) fun _ => rfl

@[simp] theorem books_refresh (s : Pool n) (e : Fin n) : (s.refresh e).books = s.books :=
  books_modifyTimeout s e _

@[simp] theorem books_recordError (s : Pool n) (e : Fin n) (reason : String) :
    (s.recordError e reason).books = s.books :=
  books_modify s e (fun _ => rfl) (fun _ => rfl) fun _ => rfl

theorem books_setStage (s : Pool n) (e : Fin n) (stage : Stage) :
    (s.setStage e stage).books = s.books.setStage e stage := by
  have hx : ∀ e', (s.setStage e stage).executor e' =
      if e' = e then { s.executor e with stage } else s.executor e' :=
    fun e' => executor_modify_eq s e e' _
  apply Books.ext
  all_goals first | rfl | skip
  all_goals
    funext e'
    simp only [books, Books.setStage, hx]
    split <;> simp_all

theorem books_setUnloaded (s : Pool n) (e : Fin n) :
    (s.modify e fun x => { x with unloaded := true }).books =
      { s.books with unloaded := fun e' => if e' = e then true else s.books.unloaded e' } := by
  have hx : ∀ e', (s.modify e fun x => { x with unloaded := true }).executor e' =
      if e' = e then { s.executor e with unloaded := true } else s.executor e' :=
    fun e' => executor_modify_eq s e e' _
  apply Books.ext
  all_goals first | rfl | skip
  all_goals
    funext e'
    simp only [books, hx]
    split <;> simp_all

/-! ## Workers and threads -/

/-- Changing an element does not show where one looks at what the change keeps. -/
theorem map_modify_keep {α β : Type} {g : α → β} {f : α → α} (h : ∀ x, g (f x) = g x)
    (l : List α) (k : Nat) : (l.modify k f).map g = l.map g := by
  apply List.ext_getElem? fun j => ?_
  simp only [List.getElem?_map, List.getElem?_modify]
  by_cases hj : k = j <;> cases l[j]? <;> simp [hj, h]

/-- Changing an element sets what one looks at, where the change does. -/
theorem map_modify_set {α β : Type} {g : α → β} {f : α → α} {b : β} (h : ∀ x, g (f x) = b)
    (l : List α) (k : Nat) : (l.modify k f).map g = (l.map g).set k b := by
  apply List.ext_getElem? fun j => ?_
  simp only [List.getElem?_map, List.getElem?_modify, List.getElem?_set, List.length_map]
  by_cases hj : k = j
  · subst hj
    by_cases hk : k < l.length
    · simp [hk, h]
    · simp [hk]
  · cases l[j]? <;> simp [hj]

/-- A change of a worker that keeps its slice and whether it is retired. -/
theorem books_modifyWorker_keep (s : Pool n) (w : WorkerId) {f : Worker n → Worker n}
    (hc : ∀ x, (f x).current = x.current) (hl : ∀ x, (f x).live = x.live) :
    (s.modifyWorker w f).books = s.books := by
  apply Books.ext
  all_goals first | rfl | skip
  · exact map_modify_keep hc s.workers w
  · exact map_modify_keep hl s.workers w

theorem books_setCurrent (s : Pool n) (w : WorkerId) (current : Option (Fin n)) :
    (s.modifyWorker w fun worker => { worker with current }).books =
      { s.books with current := s.books.current.set w current } := by
  apply Books.ext
  all_goals first | rfl | skip
  · exact map_modify_set (g := (·.current)) (f := ({ · with current })) (fun _ => rfl) s.workers w
  · exact map_modify_keep (g := (·.live)) (f := ({ · with current })) (fun _ => rfl) s.workers w

theorem books_setLive (s : Pool n) (w : WorkerId) (live : Bool) :
    (s.modifyWorker w fun worker => { worker with live }).books =
      { s.books with live := s.books.live.set w live } := by
  apply Books.ext
  all_goals first | rfl | skip
  · exact map_modify_keep (g := (·.current)) (f := ({ · with live })) (fun _ => rfl) s.workers w
  · exact map_modify_set (g := (·.live)) (f := ({ · with live })) (fun _ => rfl) s.workers w

@[simp] theorem books_setAnswer (s : Pool n) (t : ThreadId) (answer : Answer) :
    (s.setAnswer t answer).books = s.books := by
  apply Books.ext
  all_goals first | rfl | skip
  exact map_modify_keep (g := (·.code)) (f := ({ · with answer })) (fun _ => rfl) s.threads t

theorem books_setCode (s : Pool n) (t : ThreadId) (code : List (Instr n)) :
    (s.setCode t code).books = { s.books with codes := s.books.codes.set t code } := by
  apply Books.ext
  all_goals first | rfl | skip
  exact map_modify_set (g := (·.code)) (f := ({ · with code })) (fun _ => rfl) s.threads t

theorem current_eq (s : Pool n) (w : WorkerId) (e : Fin n) :
    s.books.current[w]? = some (some e) ↔ s.current? w = some e := by
  simp only [books, current?, List.getElem?_map]
  cases s.workers[w]? <;> simp

/-- Whether a worker is retired. -/
def retired (s : Pool n) (w : WorkerId) : Bool := (s.workers[w]?).any (!·.live)

theorem retired_eq (s : Pool n) (w : WorkerId) : s.retired w = (s.books.live[w]?).any (!·) := by
  simp only [retired, books, List.getElem?_map]
  cases s.workers[w]? <;> rfl

theorem code_eq (s : Pool n) (t : ThreadId) : s.code t = (s.books.codes[t]?).getD [] := by
  simp only [code, books, List.getElem?_map]
  cases s.threads[t]? <;> rfl

/-! ## The host's side -/

@[simp] theorem books_observe (s : Pool n) (e : Fin n) (o : Metrics.Observation) :
    (s.observe e o).books = s.books := by
  have he : (s.emit (.observed e o)).books = s.books := books_emit_plain s rfl rfl
  unfold observe
  simp only
  split
  · rw [books_foldl_metrics]
    exact he
  · exact he

theorem books_announce (s : Pool n) (e : Fin n) :
    (s.announce e).books = (s.emit (.announced e)).books := by
  unfold announce
  simp only
  rw [books_foldl_metrics]
  rfl

theorem books_callHost (s : Pool n) (e : Fin n) (callback : Callback) :
    (s.callHost e callback).books = (s.emit (.called e callback)).books := by
  unfold callHost
  simp only
  split
  · exact books_emit_plain _ rfl rfl
  · rfl

/-- Only the callback that unloads is part of an executor's fate. -/
theorem books_callHost_plain (s : Pool n) (e : Fin n) {callback : Callback}
    (h : callback ≠ .unload) : (s.callHost e callback).books = s.books := by
  rw [books_callHost]
  cases callback with
  | unload => exact absurd rfl h
  | _ => exact books_emit_plain s rfl rfl

@[simp] theorem books_handle (s : Pool n) (e : Fin n) (result : WorkResult) :
    (s.handle e result).1.books = s.books := by
  have hfail : ∀ (notice : Notice) (reason : String), (Event.reported notice : Event n).fate? = none →
      (Event.reported notice : Event n).isFault = false →
      ((s.report notice).recordError e reason).books = s.books := by
    intro notice reason hv hf
    rw [books_recordError]
    exact books_emit_plain s hv hf
  unfold handle
  cases result with
  | ok => rfl
  | error error =>
    simp only
    split
    · exact hfail _ _ rfl rfl
    · exact hfail _ _ rfl rfl
  | crashed reason => exact hfail _ _ rfl rfl

/-! ## The watchdog -/

@[simp] theorem books_raise (s : Pool n) (w : WorkerId) (e : Fin n) (overrun : Duration) :
    (s.raise w e overrun).1.books = s.books := by
  unfold raise
  simp only
  split
  · exact books_modifyTimeout s e _
  · exact (books_emit_plain _ rfl rfl).trans (books_modifyTimeout s e _)

@[simp] theorem books_interruptIfRunning (s : Pool n) (w : WorkerId) (e : Fin n) :
    (s.interruptIfRunning w e).1.books = s.books := by
  unfold interruptIfRunning
  split
  · exact (books_emit_plain _ rfl rfl).trans
      (books_modifyWorker_keep s w (fun _ => rfl) fun _ => rfl)
  · rfl

@[simp] theorem books_press (s : Pool n) (w : WorkerId) (e : Fin n) (overrun : Duration) :
    (s.press w e overrun).1.books = s.books := by
  have h := books_interruptIfRunning s w e
  unfold press
  simp only
  split
  · split
    · rename_i s' heq
      rw [heq] at h; exact h
    · rename_i s' heq
      rw [heq] at h; exact h
  · rfl

@[simp] theorem books_beginReport (s : Pool n) (w : WorkerId) (e : Fin n) (overrun : Duration) :
    (s.beginReport w e overrun).1.books = s.books := by
  unfold beginReport
  split
  · rfl
  · split
    · exact books_modifyWorker_keep s w (fun _ => rfl) fun _ => rfl
    · rfl

@[simp] theorem books_writeReport (s : Pool n) (e : Fin n) (overrun : Duration) (thread : String) :
    (s.writeReport e overrun thread).books = s.books := by
  unfold writeReport
  exact (books_emit_plain _ rfl rfl).trans (books_callHost_plain s e (by decide))

end Pool

end FairShare.Scheduler
