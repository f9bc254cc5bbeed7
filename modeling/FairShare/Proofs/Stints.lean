import FairShare.Proofs.Aftermath
import FairShare.Proofs.Observations
import FairShare.Proofs.Outset
import FairShare.Proofs.Pausing

/-!
# Stints on workers

A stint of an executor on a worker: its clock is started, its work is called, the slice is closed when that returns or taken
from a worker that was retired over it, its timeout is reset, what was spent is observed, and its stay ends. The moments
of a stint are told from the instructions that are carried out, by whatever thread, and this module says where an
executor can stand between two of them.
-/

namespace FairShare.Scheduler

variable {n : Nat}

/-- Whether the host itself starts the clock of an executor or resets its timeout. -/
def Action.retimes (e : Fin n) (a : Action n) : Bool :=
  a.starts e || match a with
    | .call (.resetTimer e') | .work _ (.call (.resetTimer e')) => e' = e
    | _ => false

/-- Something that happens to an executor on a worker. -/
inductive Moment where
  /-- The worker is not to begin a slice, as the scheduler stops. -/
  | skipped
  /-- The worker starts its clock. -/
  | started (now : Instant)
  /-- The worker notes how many bytes its thread was given so far. -/
  | noted (w : WorkerId) (bytes : UInt64)
  /-- The worker calls its work. -/
  | called (w : WorkerId)
  /-- The worker closes its slice, when its thread was given some bytes. -/
  | returned (w : WorkerId) (bytes : UInt64)
  /-- Its slice is taken from a worker that was retired over it. -/
  | abandoned (w : WorkerId)
  /-- Its timeout is reset. -/
  | ended (now : Instant)
  /-- The scheduler makes an observation for it. -/
  | observed (o : Metrics.Observation)
  /-- Its stay ends. -/
  | settled
  deriving DecidableEq

/-- What was observed at a moment. -/
def Moment.observation? : Moment → Option Metrics.Observation
  | observed o => some o
  | _ => none

/-- Whether a slice is over from a moment on. -/
def Moment.isEnd : Moment → Bool
  | returned _ _ | abandoned _ => true
  | _ => false

/-- A stint of an executor on a worker. -/
inductive Stint where
  /-- It was only unloaded. -/
  | skipped (finish : Instant)
  /-- Its work returned, on a thread that had been given some bytes before and has after it. -/
  | returned (w : WorkerId) (start : Instant) (before after : UInt64) (finish : Instant)
  /-- Its slice was taken from the worker, which may have called the work or not. -/
  | abandoned (w : WorkerId) (start : Instant) (before : UInt64) (called : Bool) (finish : Instant)

namespace Stint

/-- Whether there was a slice. -/
def isSlice : Stint → Bool
  | skipped _ => false
  | _ => true

/-- What the scheduler observes of a stint: the time from its start to its end, and the bytes by which the count of the
thread went up unless it was abandoned. -/
def observations (m : Metrics.Standard) : Stint → List Metrics.Observation
  | skipped _ => []
  | returned _ start before after finish =>
    .event m.computerTasks (toWord (finish - start)) ::
      if before < after then [.event m.allocation (after - before)] else []
  | abandoned _ start _ _ finish => [.event m.computerTasks (toWord (finish - start))]

/-- The moments of a stint up to the reset of its timeout. -/
def slice : Stint → List Moment
  | skipped finish => [.skipped, .ended finish]
  | returned w start before after finish =>
    [.started start, .noted w before, .called w, .returned w after, .ended finish]
  | abandoned w start before called finish =>
    .started start :: .noted w before :: (if called then [.called w] else []) ++ [.abandoned w, .ended finish]

/-- The moments of a stint. -/
def moments (m : Metrics.Standard) (v : Stint) : List Moment :=
  v.slice ++ (v.observations m).map .observed ++ [.settled]

/-- A stint does not end before it starts. -/
def Timely : Stint → Prop
  | skipped _ => True
  | returned _ start _ _ finish | abandoned _ start _ _ finish => start ≤ finish

/-- Some moments are the first ones of a stint, and not all of it. -/
def Unfinished (m : Metrics.Standard) (tail : List Moment) : Prop :=
  ∃ v : Stint, v.Timely ∧ tail <+: v.moments m ∧ tail ≠ v.moments m

variable {m : Metrics.Standard}

/-- A stint is not finished before its stay ends. -/
theorem unfinished_of_prefix {v : Stint} (hv : v.Timely) {tail : List Moment}
    (h : tail <+: v.slice ++ (v.observations m).map .observed) : Unfinished m tail := by
  refine ⟨v, hv, h.trans (List.prefix_append ..), fun heq => ?_⟩
  have hle := h.length_le
  rw [heq, moments] at hle
  simp at hle

/-- A stint is not finished before its timeout is reset. -/
theorem unfinished_of_slice {v : Stint} (hv : v.Timely) {tail : List Moment} (h : tail <+: v.slice) :
    Unfinished m tail :=
  unfinished_of_prefix hv (h.trans (List.prefix_append ..))

end Stint

/-! ## Where an executor stands -/

namespace Instr

/-- What a thread has to do for an executor that is not in a published slice, with its clock and the moments of its stint
so far. -/
inductive Point (m : Metrics.Standard) (e : Fin n) : List (Instr n) → Option Instant → List Moment → Prop
  /-- The worker has taken it. -/
  | taken (w : WorkerId) (clock : Option Instant) : Point m e [.openSlice w e, .nextSlice w] clock []
  /-- The worker unloads it. -/
  | unloading (w : WorkerId) (clock : Option Instant) :
    Point m e [.call (.unload e), .resetTimer e .never, .nextSlice w] clock [.skipped]
  /-- The worker has unloaded it. -/
  | unloaded (w : WorkerId) (clock : Option Instant) : Point m e [.resetTimer e .never, .nextSlice w] clock [.skipped]
  /-- The worker opens a slice. -/
  | opening (w : WorkerId) (clock : Option Instant) {code : List (Instr n)} (h : Opening w e false code) :
    Point m e code clock []
  /-- The worker has started the clock. -/
  | started (w : WorkerId) (start : Instant) {code : List (Instr n)}
    (h : code = [.call (.refresh e), .noteAllocated w e, .nextSlice w] ∨ code = [.noteAllocated w e, .nextSlice w]) :
    Point m e code (some start) [.started start]
  /-- The worker has noted the bytes of its thread. -/
  | noted (w : WorkerId) (start : Instant) (bytes : UInt64) :
    Point m e [.publish w e bytes, .nextSlice w] (some start) [.started start, .noted w bytes]
  /-- The worker has closed the slice. -/
  | returned (w : WorkerId) (start : Instant) (before after : UInt64) :
    Point m e [.resetTimer e (.ran before after), .nextSlice w] (some start)
      [.started start, .noted w before, .called w, .returned w after]
  /-- The slice was taken from the worker. -/
  | abandoned (w : WorkerId) (start : Instant) (bytes : UInt64) (called : Bool) (left : List (Instr n)) :
    Point m e (.resetTimer e .abandoned :: left) (some start)
      (.started start :: .noted w bytes :: (if called then [.called w] else []) ++ [.abandoned w])
  /-- The timeout was reset, and what was spent is observed. -/
  | accounting (v : Stint) (hv : v.Timely) (told : List Metrics.Observation) (notes left : List (Instr n))
    (clock : Option Instant)
    (hlen : notes.length ≤ 2)
    (hn : ∀ x ∈ notes, (∃ o, x = .account e o) ∨ ∃ before after, x = .warnAllocation e before after)
    (ho : v.observations m = told ++ notes.filterMap (Instr.observation? e)) :
    Point m e (notes ++ .settle e :: left) clock (v.slice ++ told.map .observed)

variable {m : Metrics.Standard} {e : Fin n} {code : List (Instr n)} {clock : Option Instant} {tail : List Moment}

theorem Point.stays (h : Point m e code clock tail) : 0 < code.countP (stays e) := by
  refine List.countP_pos_iff.2 ?_
  cases h with
  | opening w clock h => cases h <;> exact ⟨.noteAllocated w e, by simp, by simp⟩
  | started w start h =>
    refine ⟨.noteAllocated w e, ?_, by simp⟩
    rcases h with rfl | rfl <;> simp
  | accounting v hv told notes left clock hlen hn ho => exact ⟨.settle e, by simp, by simp⟩
  | taken w => exact ⟨.openSlice w e, by simp, by simp⟩
  | noted w start bytes => exact ⟨.publish w e bytes, by simp, by simp⟩
  | abandoned w start bytes called left => exact ⟨.resetTimer e .abandoned, by simp, by simp⟩
  | returned w start before after => exact ⟨.resetTimer e (.ran before after), by simp, by simp⟩
  | unloading w | unloaded w => exact ⟨.resetTimer e .never, by simp, by simp⟩

theorem Point.not_work (h : Point m e code clock tail) (w : WorkerId) (e' : Fin n) (rest : List (Instr n)) :
    code ≠ .work w e' :: rest := by
  cases h with
  | opening w clock h => cases h <;> simp
  | started w start h => rcases h with rfl | rfl <;> simp
  | accounting v hv told notes left clock hlen hn ho =>
    cases notes with
    | nil => simp
    | cons x notes => rcases hn x (List.mem_cons_self ..) with ⟨o, rfl⟩ | ⟨before, after, rfl⟩ <;> simp
  | _ => simp

theorem Point.unfinished (h : Point m e code clock tail) : Stint.Unfinished m tail := by
  cases h with
  | taken w | opening w clock h => exact Stint.unfinished_of_slice (v := .skipped 0) trivial List.nil_prefix
  | unloading w | unloaded w => exact Stint.unfinished_of_slice (v := .skipped 0) trivial ⟨[.ended 0], rfl⟩
  | started w start h =>
    exact Stint.unfinished_of_slice (v := .abandoned 0 start 0 false start) (Nat.le_refl start) ⟨_, rfl⟩
  | noted w start bytes =>
    exact Stint.unfinished_of_slice (v := .abandoned w start bytes false start) (Nat.le_refl start) ⟨_, rfl⟩
  | returned w start before after =>
    exact Stint.unfinished_of_slice (v := .returned w start before after start) (Nat.le_refl start) ⟨[.ended start], rfl⟩
  | abandoned w start bytes called left =>
    refine Stint.unfinished_of_slice (v := .abandoned w start bytes called start) (Nat.le_refl start) ⟨[.ended start], ?_⟩
    simp [Stint.slice]
  | accounting v hv told notes left clock hlen hn ho =>
    refine Stint.unfinished_of_prefix hv ?_
    rw [ho, List.map_append, ← List.append_assoc]
    exact List.prefix_append ..

end Instr

namespace Books

open Instr

variable {b b' : Books n} {g g' : Gear n} {a : Action n} {e : Fin n}

section Todo

variable {t : ThreadId} {i x : Instr n} {rest next : List (Instr n)}

theorem mem_todo_set {code : List (Instr n)} (h : x ∈ (b.codes.set t code).flatten) : x ∈ b.todo ∨ x ∈ code := by
  obtain ⟨code', hc, hmem⟩ := List.mem_flatten.1 h
  rcases List.mem_or_eq_of_mem_set hc with hc | rfl
  · exact Or.inl (List.mem_flatten.2 ⟨code', hc, hmem⟩)
  · exact Or.inr hmem

theorem mem_todo_replace (ht : b.codes[t]? = some (i :: rest)) (h : x ∈ (b.codes.set t (next ++ rest)).flatten) :
    x ∈ b.todo ∨ x ∈ next := by
  rcases mem_todo_set h with hold | hmem
  · exact Or.inl hold
  · rcases List.mem_append.1 hmem with hnext | hrest
    · exact Or.inr hnext
    · exact Or.inl (List.mem_flatten.2 ⟨_, List.mem_of_getElem? ht, List.mem_cons_of_mem i hrest⟩)

/-- What is to be done after a step was to be done before, or comes next, or is what a thread begins with. -/
theorem mem_todo_step (ht : b.codes[t]? = some (i :: rest)) (he : i.Effect { b with codes := b.codes.set t rest } b' next)
    (hx : x ∈ ({ b' with codes := b'.codes.set t (next ++ rest) } : Books n).todo) :
    x ∈ b.todo ∨ x ∈ next ∨ ∃ code, Begins code ∧ x ∈ code := by
  obtain ⟨extra, hcodes, hextra⟩ := codes_step ht he
  have hx : x ∈ (b.codes.set t (next ++ rest) ++ extra).flatten := hcodes ▸ hx
  rw [List.flatten_append] at hx
  rcases List.mem_append.1 hx with hx | hx
  · exact (mem_todo_replace ht hx).imp_right Or.inl
  · obtain ⟨code, hc, hmem⟩ := List.mem_flatten.1 hx
    exact Or.inr (Or.inr ⟨code, hextra code hc, hmem⟩)

end Todo

/-- Nobody comes to reset a timeout but who is told to. -/
theorem untouched_goes (h : .call (.resetTimer e) ∉ b.todo) (ha : a.retimes e = false) (hg : Goes b g a b' g') :
    .call (.resetTimer e) ∉ b'.todo := by
  intro htodo
  cases hg with
  | rest => exact h htodo
  | advance => exact h htodo
  | arrive c =>
    have hin : .call (.resetTimer e) ∈ b.todo ∨ c = .resetTimer e := by simpa [todo, eq_comm] using htodo
    rcases hin with hold | rfl
    · exact h hold
    · simp [Action.retimes] at ha
  | perform t w e' rest next x ht hx =>
    rcases mem_todo_replace ht htodo with hold | hnext
    · exact h hold
    · cases x with
      | call c =>
        cases hx
        obtain rfl : c = .resetTimer e := by simpa [eq_comm] using hnext
        simp [Action.retimes] at ha
      | sleep nanos => obtain ⟨deadline, rfl⟩ := hx; simp at hnext
      | observe o => cases hx; simp at hnext
      | allocate bytes => cases hx; simp at hnext
      | finish result => cases hx; simp at hnext
  | step t i rest next c g' ht hw he hl hd =>
    rcases mem_todo_step ht he htodo with hold | hnext | ⟨code, hbegins, hin⟩
    · exact h hold
    · cases hl.yields hnext with
      | call w e' => exact hw w e' rfl
    · rcases hbegins with ⟨w, rfl⟩ | rfl <;> simp at hin
  | tear t e' o rest ht hf =>
    rcases mem_todo_set htodo with hold | hnil
    · exact h hold
    · cases hnil

/-- Who has made up the account of a slice ends the stay after that. -/
theorem billed_goes (h : ∀ code ∈ b.codes, ∀ o, .account e o ∈ code → .settle e ∈ code) (hf : b.Fitted)
    (hg : Goes b g a b' g') {code : List (Instr n)} (hc : code ∈ b'.codes) {o : Metrics.Observation}
    (ho : .account e o ∈ code) : .settle e ∈ code := by
  rcases mem_codes_goes hg hc with hc | hbegins | ⟨c, rfl⟩ | rfl | ⟨t, i, rest, next, ht, hl, rfl, -⟩
  · exact h code hc o ho
  · rcases hbegins with ⟨w, rfl⟩ | rfl <;> simp at ho
  · simp at ho
  · cases ho
  · have hmem := List.mem_of_getElem? ht
    rcases List.mem_append.1 ho with ho | ho
    · cases hl.yields ho
      obtain ⟨accounts, -, rfl⟩ := hl
      simp
    · rcases List.mem_cons.1 (h _ hmem o (List.mem_cons_of_mem i ho)) with rfl | hs
      · -- Nothing is observed once the stay has ended.
        obtain ⟨w, rfl | ⟨base, hbase, rfl⟩⟩ : Left rest := (hf _ hmem).1
        · simp at ho
        · rcases hbase with rfl | rfl | ⟨ws, rfl⟩ <;> simp at ho
      · exact List.mem_append_right next hs

end Books

namespace Pool

open Instr

variable {s : Pool n} {e : Fin n} {a : Action n}

/-- The bytes that the thread of a worker was given so far. -/
def allocated (s : Pool n) (w : WorkerId) : UInt64 := (s.workers[w]?).elim 0 (·.allocated)

/-- What an instruction is for an executor on a worker. -/
def momentOf (s : Pool n) (e : Fin n) : Instr n → Option Moment
  | .openSlice _ e' => if e' = e ∧ s.phase.isStopping then some .skipped else none
  | .call (.startTimer e') => if e' = e then some (.started s.clock) else none
  | .noteAllocated w e' => if e' = e then some (.noted w (s.allocated w)) else none
  | .callWork w e' => if e' = e ∧ s.current? w = some e then some (.called w) else none
  | .closeSlice w _ _ => if s.current? w = some e then some (.returned w (s.allocated w)) else none
  | .takeAbandoned w => if s.current? w = some e then some (.abandoned w) else none
  | .resetTimer e' _ => if e' = e then some (.ended s.clock) else none
  | .account e' o => if e' = e then some (.observed o) else none
  | .settle e' => if e' = e then some .settled else none
  | _ => none

/-- What an action is for an executor on a worker. -/
def moment? (s : Pool n) (e : Fin n) (a : Action n) : Option Moment := (s.head? a).bind (s.momentOf e)

/-- The moments of an executor in the course of some actions. -/
def chronicle (s : Pool n) (e : Fin n) : List (Action n) → List Moment
  | [] => []
  | a :: actions => (s.moment? e a).toList ++ (s.act a).chronicle e actions

/-- The start of the clock of an executor, if it runs. -/
def startOf (s : Pool n) (e : Fin n) : Option Instant := (s.executor e).timeout.clock.start

/-- What is for an executor on a worker belongs to its stay before the slice is published or after it is withdrawn, or
concerns the worker that has the slice. -/
theorem momentOf_elim {i : Instr n} {m : Moment} (h : s.momentOf e i = some m) :
    (stays e i = true ∨ i = .call (.startTimer e) ∨ ∃ o, i = .account e o) ∨
      ∃ w, s.books.current[w]? = some (some e) ∧
        ((i = .callWork w e ∧ m = .called w) ∨ (∃ e' b, i = .closeSlice w e' b ∧ m = .returned w (s.allocated w)) ∨
          i = .takeAbandoned w ∧ m = .abandoned w) := by
  simp only [current_eq]
  cases i with
  | call c => cases c <;> simp_all [momentOf]
  | _ => simp_all [momentOf]

/-- What the stints of an executor rest on. -/
structure Traced (s : Pool n) (e : Fin n) : Prop where
  orderly : s.books.Orderly
  placed : ∀ e, (s.books.account e).Placed
  fitted : s.books.Fitted
  clocked : s.books.Clocked s.gear e
  /-- Nobody else resets its timeout. -/
  untouched : .call (.resetTimer e) ∉ s.books.todo
  /-- Whoever makes an observation of its slice ends its stay after that. -/
  billed : ∀ code ∈ s.books.codes, ∀ o, .account e o ∈ code → .settle e ∈ code
  punctual : ∀ start, s.startOf e = some start → start ≤ s.clock

/-- The clock of an executor is started or stopped only by the instructions that are there for it. -/
theorem startOf_act (s : Pool n) (a : Action n) (e : Fin n) : (s.act a).startOf e = s.startOf e ∨
    ∃ t i rest, a = .step t ∧ s.code t = i :: rest ∧
      (i = .call (.startTimer e) ∧ (s.act a).startOf e = some s.clock ∨
        (i = .call (.resetTimer e) ∨ ∃ slice, i = .resetTimer e slice) ∧ (s.act a).startOf e = none) := by
  rcases Books.timeout_goes (act_goes s a) e with hkeep | ⟨t, i, rest, ha, ht, hr⟩
  · exact Or.inl (congrArg (·.clock.start) hkeep)
  · have hcode : s.code t = i :: rest := by rw [code_eq, ht, Option.getD_some]
    have hstart : (s.act a).startOf e = ((s.act a).gear.timeout e).clock.start := rfl
    rw [hstart]
    generalize (s.act a).gear.timeout e = x at hr
    cases hr with
    | start => exact Or.inr ⟨t, _, rest, ha, hcode, Or.inl ⟨rfl, rfl⟩⟩
    | clear => exact Or.inr ⟨t, _, rest, ha, hcode, Or.inr ⟨Or.inl rfl, rfl⟩⟩
    | reset slice => exact Or.inr ⟨t, _, rest, ha, hcode, Or.inr ⟨Or.inr ⟨slice, rfl⟩, rfl⟩⟩
    | _ => exact Or.inl rfl

namespace Traced

variable {t : ThreadId} {i : Instr n} {rest : List (Instr n)}

/-- A thread with such an instruction to carry out has the stay of the executor to end. -/
theorem busy (h : s.Traced e) (ht : s.books.codes[t]? = some (i :: rest))
    (hi : stays e i = true ∨ i = .call (.startTimer e) ∨ ∃ o, i = .account e o) : 0 < (i :: rest).countP (stays e) := by
  refine List.countP_pos_iff.2 ?_
  rcases hi with hi | rfl | ⟨o, rfl⟩
  · exact ⟨i, List.mem_cons_self .., hi⟩
  · obtain ⟨w, rfl⟩ := h.clocked.starting _ (List.mem_of_getElem? ht) rest (List.suffix_refl _)
    exact ⟨.noteAllocated w e, by simp, by simp⟩
  · exact ⟨.settle e, h.billed _ (List.mem_of_getElem? ht) o (List.mem_cons_self ..), by simp⟩

/-- Two threads do not both have the stay of an executor to end. -/
theorem sole (h : s.Traced e) {t t' : ThreadId} {code code' : List (Instr n)} (ht : s.books.codes[t]? = some code)
    (ht' : s.books.codes[t']? = some code') (hc : 0 < code.countP (stays e)) (hc' : 0 < code'.countP (stays e)) :
    t = t' := by
  by_contra hne
  have htwo := Books.countP_two (stays e) hne ht ht'
  have hrun := Books.stays_le_running (h.placed e)
  have hone := Books.running_le_one (h.placed e)
  omega

/-- Nor does a thread while a worker has the slice. -/
theorem not_current (h : s.Traced e) {code : List (Instr n)} (ht : s.books.codes[t]? = some code)
    (hc : 0 < code.countP (stays e)) (w : WorkerId) : s.books.current[w]? ≠ some (some e) := by
  intro hcur
  have hpos : 0 < s.books.current.count (some e) := List.count_pos_iff.2 (List.mem_of_getElem? hcur)
  have hle : code.countP (stays e) ≤ s.books.todo.countP (stays e) :=
    (List.sublist_flatten_of_mem (List.mem_of_getElem? ht)).countP_le
  have hrun := Books.stays_le_running (h.placed e)
  have hone := Books.running_le_one (h.placed e)
  omega

/-- One worker has the slice. -/
theorem one_current (h : s.Traced e) {w w' : WorkerId} (hw : s.books.current[w]? = some (some e))
    (hw' : s.books.current[w']? = some (some e)) : w = w' := by
  have hrun := Books.stays_le_running (h.placed e)
  have hone := Books.running_le_one (h.placed e)
  exact index_unique (by omega) hw hw'

theorem act (h : s.Traced e) (ha : a.retimes e = false) : (s.act a).Traced e := by
  have hg := act_goes s a
  have hm := act_moves s a
  have hstarts := (Bool.or_eq_false_iff.1 ha).1
  refine ⟨h.orderly.moves hm, fun e' => (h.placed e').move (hm.account h.orderly e'), h.fitted.goes hg,
    h.clocked.goes h.fitted (h.placed e) hstarts hg, Books.untouched_goes h.untouched ha hg,
    fun code hc o ho => Books.billed_goes h.billed h.fitted hg hc ho, fun start hs => ?_⟩
  have hclock : s.clock ≤ (s.act a).clock := Books.clock_le_goes hg
  rcases s.startOf_act a e with hkeep | ⟨t, i, rest, -, -, ⟨-, hnow⟩ | ⟨-, hnone⟩⟩
  · exact Nat.le_trans (h.punctual start (hkeep ▸ hs)) hclock
  · obtain rfl : s.clock = start := Option.some.inj (hnow ▸ hs)
    exact hclock
  · rw [hnone] at hs
    cases hs

end Traced

end Pool

end FairShare.Scheduler
