import FairShare.Proofs.Aftermath
import FairShare.Proofs.Cadence
import FairShare.Proofs.Crew
import FairShare.Proofs.Dispatch
import FairShare.Proofs.Posts
import FairShare.Proofs.Slices
import FairShare.Proofs.Unloading

/-!
# The end of a slice

Whatever the host makes of the calls that it is given, a slice that is over is closed: the thread that returned from its work,
or the one that takes it from a worker that is retired over it, ends the stay of the executor in a few more steps of its own
and goes on with what it had to do next. Only an observer of the host that fails breaks that off.
-/

namespace FairShare.Scheduler

variable {n : Nat}

/-- What happened to an executor stays on its account. -/
theorem Account.Move.marks {a a' : Account} (h : a.Move a') : a.marks <+: a'.marks := by
  cases h <;> first | exact List.prefix_refl _ | exact List.prefix_append ..

namespace Pool

open Instr

variable {s : Pool n} {t : ThreadId} {w : WorkerId} {e : Fin n} {k : Nat} {left : List (Instr n)}

/-! ## Threads that are not torn down -/

/-- A pool in the course of a run in which no observer fails. -/
structure Steady (s : Pool n) : Prop extends s.Manning where
  orderly : s.books.Orderly
  placed : ∀ e, (s.books.account e).Placed
  unloading : ∀ e, (s.books.account e).Unloading
  peopled : s.books.Peopled
  warded : s.Warded
  calm : ∀ e, (s.executor e).host.sink ≠ .host true

namespace Steady

theorem act (h : s.Steady) (a : Action n) : (s.act a).Steady := by
  have hg := act_goes s a
  have hm := act_moves s a
  refine ⟨h.toManning.act h.orderly a, h.orderly.moves hm, fun e => (h.placed e).move (hm.account h.orderly e),
    fun e => (h.unloading e).move (h.placed e) (hm.account h.orderly e), h.peopled.goes h.orderly h.calm hg,
    h.warded.act h.fitted h.placed a, fun e => ?_⟩
  have hhost : ((s.act a).executor e).host = (s.executor e).host := congrFun (Books.host_goes hg) e
  rw [hhost]
  exact h.calm e

theorem run (h : s.Steady) (actions : List (Action n)) : (s.run actions).Steady := by
  induction actions generalizing s with
  | nil => exact h
  | cons a actions ih => exact ih (h.act a)

/-- What a thread has to do after the instruction at hand is what it has to do when that is done. -/
theorem does (h : s.Steady) {i : Instr n} {rest : List (Instr n)} (hcode : s.code t = i :: rest)
    (hwait : s.mustWait t i = false) :
    ∃ next b', i.Effect { s.books with codes := s.books.codes.set t rest } b' next ∧ i.Leads next ∧
      (s.act (.step t)).books = { b' with codes := b'.codes.set t (next ++ rest) } ∧
      (s.act (.step t)).code t = next ++ rest := by
  rcases s.step_goes t hcode hwait with ⟨next, b', g', he, hl, -, hbooks, -⟩ | ⟨e, o, -, hfail, -⟩
  · exact ⟨next, b', he, hl, hbooks, code_step (codes_of_code hcode) he hbooks⟩
  · exact absurd hfail (h.calm e)

theorem keeps (h : s.Steady) {i : Instr n} {rest : List (Instr n)} (hcode : s.code t = i :: rest) :
    rest <:+ (s.act (.step t)).code t := by
  cases hwait : s.mustWait t i with
  | true =>
    rw [show s.act (.step t) = s from step_of_mustWait hcode hwait, hcode]
    exact List.suffix_cons i rest
  | false =>
    obtain ⟨next, b', -, -, -, hnew⟩ := h.does hcode hwait
    rw [hnew]
    exact List.suffix_append next rest

end Steady

/-! ## Being told of an unload -/

/-- Everybody was told that an executor is unloaded. -/
structure Told (s : Pool n) (e : Fin n) : Prop where
  unloaded : (s.executor e).unloaded = true
  host : .called e .unload ∈ s.history.toList
  context : .announced e ∈ s.history.toList

theorem mem_marks {m : Mark} (h : m ∈ s.books.marks e) : ∃ v ∈ s.history.toList, m.Of e v := by
  obtain ⟨v, hv, hm⟩ := List.mem_filterMap.1 h
  exact ⟨v, hv, Event.mark?_eq_some.1 hm⟩

/-- What happened to an executor stays on its account. -/
theorem marks_run (s : Pool n) (e : Fin n) (actions : List (Action n)) {m : Mark} (ho : s.books.Orderly)
    (h : m ∈ s.books.marks e) : m ∈ (s.run actions).books.marks e := by
  induction actions generalizing s with
  | nil => exact h
  | cons a actions ih =>
    have hm := act_moves s a
    exact ih (s.act a) (ho.moves hm) ((hm.account ho e).marks.subset h)

namespace Steady

theorem told (h : s.Steady) (hu : .unloaded ∈ s.books.marks e) (ha : .announced ∈ s.books.marks e) : s.Told e := by
  obtain ⟨v, hv, rfl⟩ := mem_marks hu
  obtain ⟨v', hv', rfl⟩ := mem_marks ha
  refine ⟨?_, hv, hv'⟩
  have htold : _ + (s.books.marks e).count .unloaded = if s.books.unloaded e = true then 1 else 0 := (h.unloading e).told
  have hpos := List.count_pos_iff.2 hu
  show s.books.unloaded e = true
  by_contra hnot
  rw [if_neg hnot] at htold
  omega

theorem announces (h : s.Steady) (hcode : s.code t = .announce e :: left) (hu : .unloaded ∈ s.books.marks e) :
    Soon t 1 fun now => (s.run now).code t = left ∧ (s.run now).Told e := by
  refine Soon.step hcode (by simp) fun pre _ hcode' => Soon.here ?_
  have hpre := h.run pre
  obtain ⟨next, b', ⟨rfl, rfl⟩, -, hbooks, hnew⟩ := hpre.does hcode' rfl
  have htold : ((s.run pre).act (.step t)).Told e := by
    refine (hpre.act _).told ?_ ?_
    · rw [hbooks]
      exact List.mem_append_left _ (marks_run s e pre h.orderly hu)
    · rw [hbooks]
      simp
  rw [run_through]
  exact ⟨hnew, htold⟩

theorem tells (h : s.Steady) (hcode : s.code t = .callHost e .unload :: .announce e :: left) :
    Soon t 2 fun now => (s.run now).code t = left ∧ (s.run now).Told e := by
  refine Soon.step hcode (by simp) fun pre _ hcode' => ?_
  have hpre := h.run pre
  obtain ⟨next, b', ⟨rfl, rfl⟩, -, hbooks, hnew⟩ := hpre.does hcode' rfl
  refine ((hpre.act _).announces hnew ?_).mono (Nat.le_refl 1) fun now hnow => by rwa [run_through]
  rw [hbooks]
  simp

/-- Whoever has to finish the unload of an executor is the first to do so. -/
theorem finishes (h : s.Steady) (hcode : s.code t = .finishUnload e :: left) :
    Soon t 3 fun now => (s.run now).code t = left ∧ (s.run now).Told e := by
  refine Soon.step hcode (by simp) fun pre _ hcode' => ?_
  have hpre := h.run pre
  obtain ⟨next, b', heff, -, -, hnew⟩ := hpre.does hcode' rfl
  rcases heff with ⟨hunloaded, -, -⟩ | ⟨-, -, rfl⟩
  · -- There would be two who finish it.
    have hpos : 0 < ((s.run pre).books.account e).finishing :=
      List.countP_pos_iff.2 ⟨_, Books.mem_todo (codes_of_code hcode'), by simp⟩
    have hone := (hpre.unloading e).finished
    have hunloaded : ((s.run pre).books.account e).unloaded = true := hunloaded
    rw [hunloaded, if_pos rfl] at hone
    split at hone <;> omega
  · exact ((hpre.act _).tells hnew).mono (Nat.le_refl 2) fun now hnow => by rwa [run_through]

end Steady

/-! ## The end of a stay -/

/-- From one moment to the next an executor leaves its worker: it is not running any more, and in the run queue again if it
was submitted meanwhile. -/
structure Leaves (before after : Pool n) (e : Fin n) : Prop where
  running : e ∉ after.running
  stage : (after.executor e).stage = (before.executor e).stage.sliceEnded
  requeued : (before.executor e).stage = .repeating → before.phase ≠ .closed → ∃ x ∈ after.queue, x.executor = e

/-- In the course of some actions a thread ends the stay of an executor, and finishes its unload if that was put off. -/
def Closes (s : Pool n) (t : ThreadId) (e : Fin n) (actions : List (Action n)) : Prop :=
  ∃ pre post, actions = pre ++ .step t :: post ∧ Leaves (s.run pre) ((s.run pre).act (.step t)) e ∧
    (((s.run pre).executor e).stage = .done → (s.run actions).Told e)

theorem Closes.through {pre now : List (Action n)} {a : Action n} (h : ((s.run pre).act a).Closes t e now) :
    s.Closes t e (pre ++ a :: now) := by
  obtain ⟨pre', post, rfl, hleaves, htold⟩ := h
  refine ⟨pre ++ a :: pre', post, by simp, ?_, ?_⟩
  · rwa [run_through]
  · rwa [run_through, run_through]

namespace Steady

theorem leaves (h : s.Steady) (hcode : s.code t = .settle e :: left) : Leaves s (s.act (.step t)) e := by
  obtain ⟨next, b', ⟨⟨c, faults, arrival, hc, -, hb'⟩, -⟩, -, hbooks, -⟩ := h.does hcode rfl
  obtain ⟨runtime, rfl, -⟩ := hc.eq
  have hrunning : (s.act (.step t)).running = b'.running := congrArg Books.running hbooks
  have hstage : ((s.act (.step t)).executor e).stage = b'.stage e := congrArg (Books.stage · e) hbooks
  have hqueue : (s.act (.step t)).queue = b'.queue := congrArg Books.queue hbooks
  constructor
  case running =>
    rw [hrunning]
    split at hb' <;> simp [hb']
  case stage =>
    rw [hstage]
    split at hb' <;> simp [hb', books]
  case requeued =>
    intro hrepeat hopen
    rw [if_pos ⟨hrepeat, hopen⟩] at hb'
    rw [hqueue, hb']
    exact ⟨_, (Entry.insert_perm _ _).mem_iff.2 (List.mem_cons_self ..), rfl⟩

theorem settles (h : s.Steady) (hcode : s.code t = .settle e :: left) :
    Soon t 4 fun now => (s.run now).code t = left ∧ s.Closes t e now := by
  refine Soon.step hcode (by simp) fun pre _ hcode' => ?_
  have hpre := h.run pre
  have hleaves := hpre.leaves hcode'
  obtain ⟨next, b', ⟨-, hnext⟩, -, -, hnew⟩ := hpre.does hcode' rfl
  by_cases hdone : (s.run pre).books.stage e = .done
  · rw [hnext, if_pos hdone] at hnew
    refine ((hpre.act _).finishes hnew).mono (Nat.le_refl 3) fun now hnow => ?_
    rw [run_through]
    exact ⟨hnow.1, pre, now, rfl, hleaves, fun _ => by rw [run_through]; exact hnow.2⟩
  · rw [hnext, if_neg hdone] at hnew
    refine Soon.here ?_
    rw [run_through]
    exact ⟨hnew, pre, [], rfl, hleaves, fun hst => absurd hst hdone⟩

theorem observes (h : s.Steady) {notes : List (Instr n)}
    (hn : ∀ x ∈ notes, (∃ o, x = .account e o) ∨ ∃ before after, x = .warnAllocation e before after)
    (hcode : s.code t = notes ++ .settle e :: left) :
    Soon t (4 + notes.length) fun now => (s.run now).code t = left ∧ s.Closes t e now := by
  induction notes generalizing s with
  | nil => exact h.settles hcode
  | cons x notes ih =>
    rw [List.forall_mem_cons] at hn
    refine Soon.step hcode (by rcases hn.1 with ⟨o, rfl⟩ | ⟨before, after, rfl⟩ <;> simp) fun pre _ hcode' => ?_
    have hpre := h.run pre
    have hwait : (s.run pre).mustWait t x = false := by rcases hn.1 with ⟨o, rfl⟩ | ⟨before, after, rfl⟩ <;> rfl
    obtain ⟨next, b', -, hl, -, hnew⟩ := hpre.does hcode' hwait
    obtain rfl : next = [] := by rcases hn.1 with ⟨o, rfl⟩ | ⟨before, after, rfl⟩ <;> exact hl
    refine (ih (hpre.act _) hn.2 hnew).mono (Nat.le_refl _) fun now hnow => ?_
    rw [run_through]
    exact ⟨hnow.1, hnow.2.through⟩

theorem resets (h : s.Steady) {slice : SliceRecord} (hcode : s.code t = .resetTimer e slice :: left) :
    Soon t 7 fun now => (s.run now).code t = left ∧ s.Closes t e now := by
  refine Soon.step hcode (by simp) fun pre _ hcode' => ?_
  have hpre := h.run pre
  obtain ⟨hlen, hn, -⟩ := account_notes (s.run pre) e (((s.run pre).executor e).timeout.executionTime (s.run pre).clock) slice
  refine ((hpre.act _).observes hn (code_resetTimer hcode')).mono (by omega) fun now hnow => ?_
  rw [run_through]
  exact ⟨hnow.1, hnow.2.through⟩

end Steady

/-! ## Withdrawn slices -/

/-- In the course of some actions a thread takes the slice of an executor from a worker that is retired over it. -/
def Taken (s : Pool n) (w : WorkerId) (e : Fin n) (actions : List (Action n)) : Prop :=
  ∃ pre t left post, actions = pre ++ .step t :: post ∧ (s.run pre).code t = .takeAbandoned w :: left ∧
    (s.run pre).current? w = some e

theorem Taken.through {pre now : List (Action n)} {a : Action n} (h : ((s.run pre).act a).Taken w e now) :
    s.Taken w e (pre ++ a :: now) := by
  obtain ⟨pre', t, left, post, rfl, hcode, hcur⟩ := h
  refine ⟨pre ++ a :: pre', t, left, post, by simp, ?_, ?_⟩
  · rwa [run_through]
  · rwa [run_through]

theorem Taken.append {pre : List (Action n)} (h : s.Taken w e pre) (now : List (Action n)) : s.Taken w e (pre ++ now) := by
  obtain ⟨pre', t, left, post, rfl, hcode, hcur⟩ := h
  exact ⟨pre', t, left, post ++ now, by simp, hcode, hcur⟩

/-- In the course of some actions a thread comes to some code, and if a worker had the slice of an executor then the stay of
that was ended by the thread, or the slice was taken. -/
structure Passes (s : Pool n) (t : ThreadId) (w : WorkerId) (e : Fin n) (left : List (Instr n)) (now : List (Action n)) :
    Prop where
  comes : (s.run now).code t = left
  closed : s.current? w = some e → s.Closes t e now ∨ s.Taken w e now

namespace Steady

/-- A slice stays with its worker until the thread of that comes to close it, unless another thread takes it. -/
theorem slice_act (h : s.Steady) (hcur : s.current? w = some e) {a : Action n}
    (hclose : ∀ t i rest, a = .step t → s.code t = i :: rest → ∀ e' bytes, i ≠ .closeSlice w e' bytes) :
    (s.act a).current? w = some e ∨ ∃ t left, a = .step t ∧ s.code t = .takeAbandoned w :: left := by
  have hcur := (current_eq s w e).2 hcur
  rw [← current_eq]
  have hg := act_goes s a
  generalize (s.act a).books = b', (s.act a).gear = g' at hg ⊢
  cases hg with
  | step t i rest next b' g' ht hw he hl hd =>
    have hcode : s.code t = i :: rest := by rw [code_eq, ht, Option.getD_some]
    rcases (outcome hw he hl hd).current_keep hcur with hkeep | hwithdraw | ⟨e', bytes, rfl⟩
    · exact Or.inl hkeep
    · rcases eq_of_withdraws hwithdraw with ⟨e', bytes, rfl⟩ | rfl
      · exact absurd rfl (hclose t _ rest rfl hcode e' bytes)
      · exact Or.inr ⟨t, rest, rfl, hcode⟩
    · exact (h.orderly.not_publish h.fitted hcur ht).elim
  | _ => exact Or.inl hcur

theorem slice_until (h : s.Steady) (hcur : s.current? w = some e) {i : Instr n} {rest : List (Instr n)}
    (hcode : s.code t = i :: rest) (hwork : ∀ w e, i ≠ .work w e) (hnext : .nextSlice w ∈ i :: rest) {pre : List (Action n)}
    (hpre : ∀ a ∈ pre, a ≠ .step t) : (s.run pre).current? w = some e ∨ s.Taken w e pre := by
  induction pre generalizing s with
  | nil => exact Or.inl hcur
  | cons a pre ih =>
    rw [List.forall_mem_cons] at hpre
    have hkeep : (s.act a).code t = i :: rest :=
      (act_code s hpre.1 (fun w e rest' hw => hwork w e (List.cons.inj (hcode.symm.trans hw)).1) (by simp [hcode])).trans hcode
    have hclose : ∀ t' j rest', a = .step t' → s.code t' = j :: rest' → ∀ e' bytes, j ≠ .closeSlice w e' bytes := by
      rintro t' j rest' rfl hcode' e' bytes rfl
      have ht' := codes_of_code hcode'
      obtain rfl : rest' = [.nextSlice w] := (h.fitted _ (List.mem_of_getElem? ht')).1
      exact hpre.1 (congrArg Action.step (h.orderly.thread_unique ht' (codes_of_code hcode) (by simp) hnext))
    -- Only the thread of the worker closes the slice, and that does not step here.
    rcases h.slice_act hcur hclose with hcur' | ⟨t', left, rfl, htake⟩
    · rcases ih (h.act a) hcur' hkeep hpre.2 with hcur'' | htaken
      · exact Or.inl hcur''
      · exact Or.inr (show s.Taken w e ([] ++ a :: pre) from Taken.through htaken)
    · exact Or.inr ⟨[], t', left, pre, rfl, htake, hcur⟩

/-- A thread that goes on to the end of a slice comes to it whether or not the slice is taken meanwhile. -/
theorem leads_on (h : s.Steady) {i : Instr n} {rest : List (Instr n)} (hcode : s.code t = i :: rest)
    (hwork : ∀ w e, i ≠ .work w e) (hnext : .nextSlice w ∈ rest) (hwait : ∀ s : Pool n, s.mustWait t i = false)
    (hkeep : withdraws w i = false)
    (hthen : ∀ (s' : Pool n) (next : List (Instr n)), s'.Steady → i.Leads next → s'.code t = next ++ rest →
      Soon t k (s'.Passes t w e left)) : Soon t (k + 1) (s.Passes t w e left) := by
  refine Soon.step hcode hwork fun pre hpre hcode' => ?_
  have hsteady := h.run pre
  obtain ⟨next, b', -, hl, -, hnew⟩ := hsteady.does hcode' (hwait _)
  refine (hthen _ next (hsteady.act (.step t)) hl hnew).mono (Nat.le_refl k) fun now hnow => ⟨?_, fun hcur => ?_⟩
  · rw [run_through]
    exact hnow.comes
  · rcases h.slice_until hcur hcode hwork (List.mem_cons_of_mem i hnext) hpre with hcur' | htaken
    · have hstays : ((s.run pre).act (.step t)).current? w = some e := by
        have hclose : ∀ t' j rest', (Action.step t : Action n) = .step t' → (s.run pre).code t' = j :: rest' →
            ∀ e' bytes, j ≠ .closeSlice w e' bytes := by
          rintro t' j rest' ⟨⟩ hj e' bytes rfl
          obtain ⟨rfl, -⟩ := List.cons.inj (hcode'.symm.trans hj)
          simp at hkeep
        rcases hsteady.slice_act hcur' hclose with hcur'' | ⟨t', left', ⟨⟩, htake⟩
        · exact hcur''
        · obtain ⟨rfl, -⟩ := List.cons.inj (hcode'.symm.trans htake)
          simp at hkeep
      exact (hnow.closed hstays).imp Closes.through Taken.through
    · exact Or.inr (htaken.append _)

/-- A thread that comes to close a slice ends the stay, unless the slice was taken from its worker before. -/
theorem closes (h : s.Steady) {bytes : UInt64} (hcode : s.code t = [.closeSlice w e bytes, .nextSlice w]) :
    Soon t 8 (s.Passes t w e [.nextSlice w]) := by
  refine Soon.step hcode (by simp) fun pre hpre hcode' => ?_
  have hsteady := h.run pre
  obtain ⟨next, b', ⟨-, hnext⟩, hl, -, hnew⟩ := hsteady.does hcode' rfl
  rcases hl with rfl | ⟨slice, rfl⟩
  · refine Soon.here ⟨by rw [run_through]; exact hnew, fun hcur => Or.inr ?_⟩
    rcases h.slice_until hcur hcode (by simp) (by simp) hpre with hcur' | htaken
    · rcases hnext with ⟨e', slice, -, hnil⟩ | ⟨hnone, -⟩
      · cases hnil
      · exact absurd ((current_eq _ w e).2 hcur') (hnone e)
    · exact htaken.append [.step t]
  · refine ((hsteady.act _).resets hnew).mono (Nat.le_refl 7) fun now hnow => ⟨?_, fun _ => Or.inl hnow.2.through⟩
    rw [run_through]
    exact hnow.1

theorem handles (h : s.Steady) {bytes : UInt64} {r : WorkResult}
    (hcode : s.code t = [.handle e r, .closeSlice w e bytes, .nextSlice w]) :
    Soon t 10 (s.Passes t w e [.nextSlice w]) := by
  refine h.leads_on hcode (by simp) (by simp) (fun _ => rfl) rfl fun s' next h' hl hnew => ?_
  rcases hl with rfl | rfl
  · exact (h'.closes hnew).mono (by omega) fun _ => id
  · exact h'.leads_on hnew (by simp) (by simp) (fun _ => rfl) rfl fun s'' next h'' hl hnew => by
      obtain rfl : next = [] := hl
      exact h''.closes hnew

/-- When its work returns, or crashes, a thread comes back for the next executor, and the slice is closed. -/
theorem returns (h : s.Steady) {rest : List (Instr n)} (hcode : s.code t = .work w e :: rest) (r : WorkResult) :
    (s.act (.work t (.finish r))).current? w = s.current? w ∧
      Soon t 10 ((s.act (.work t (.finish r))).Passes t w e [.nextSlice w]) := by
  have ht := codes_of_code hcode
  obtain ⟨bytes, rfl⟩ : ∃ bytes, rest = [.closeSlice w e bytes, .nextSlice w] := (h.fitted _ (List.mem_of_getElem? ht)).1
  have hact : s.act (.work t (.finish r)) =
      (s.emit (.workEnded e w r)).setCode t [.handle e r, .closeSlice w e bytes, .nextSlice w] := by
    simp only [Pool.act, hcode]
    rfl
  have hnew : (s.act (.work t (.finish r))).code t = [.handle e r, .closeSlice w e bytes, .nextSlice w] := by
    rw [hact]
    exact code_setCode_self (s := s.emit _) hcode _
  exact ⟨by rw [hact]; rfl, (h.act _).handles hnew⟩

/-- A slice that is taken from its worker is closed by the thread that takes it. -/
theorem takes (h : s.Steady) (hcode : s.code t = .takeAbandoned w :: left) (hcur : s.current? w = some e) :
    Soon t 7 fun now => ((s.act (.step t)).run now).code t = left ∧ (s.act (.step t)).Closes t e now := by
  obtain ⟨next, b', ⟨-, hnext⟩, -, -, hnew⟩ := h.does hcode rfl
  have hcur := (current_eq s w e).2 hcur
  rcases hnext with ⟨e', hcur', rfl⟩ | ⟨hnone, -⟩
  · have hcur' : s.books.current[w]? = some (some e') := hcur'
    obtain rfl : e = e' := by simpa using hcur.symm.trans hcur'
    exact (h.act _).resets hnew
  · exact absurd hcur (hnone e)

end Steady

/-! ## Slots that are left -/

/-- Whether a worker that retires is wanted back. -/
def wants (s : Pool n) : Bool :=
  match s.phase with
  | .running => true
  | .stopping => !s.queue.isEmpty
  | .closed => false

/-- From one moment to the next a worker leaves its slot, to a new one whose thread comes for work or to nobody. -/
structure Vacates (before after : Pool n) (w : WorkerId) (replaced : Bool) : Prop where
  slot : ∃ slot : Nat, before.slots[slot]? = some (some w) ∧
    after.slots[slot]? = some (if replaced then some before.workers.length else none)
  count : after.workerCount = if replaced then before.workerCount else before.workerCount - 1
  thread : replaced = true →
    after.code before.threads.length = [.startWorker before.workers.length, .nextSlice before.workers.length]

/-- In the course of some actions a thread has a worker leave its slot, to another one if that is wanted. -/
def Replaces (s : Pool n) (t : ThreadId) (w : WorkerId) (actions : List (Action n)) : Prop :=
  ∃ pre mid post, actions = pre ++ .step t :: (mid ++ .step t :: post) ∧
    Vacates (((s.run pre).act (.step t)).run mid) ((((s.run pre).act (.step t)).run mid).act (.step t)) w (s.run pre).wants

theorem vacate_eq {worker : Worker n} (hw : s.workers[w]? = some worker) (hs : s.slots[worker.slot]? = some (some w))
    (respawn : Bool) :
    let s' : Pool n := { s with workerCount := s.workerCount - 1, slots := s.slots.set worker.slot none }
    s.vacate w respawn = { if respawn then s'.spawnWorker worker.slot else s' with stopWaiters := [] } := by
  simp [vacate, hw, hs]

namespace Steady

theorem vacates (h : s.Steady) {respawn : Bool} (hcode : s.code t = .vacate w respawn :: left) :
    Vacates s (s.act (.step t)) w respawn ∧ (s.act (.step t)).code t = left := by
  have ht := codes_of_code hcode
  obtain ⟨-, slot, hslot⟩ := Books.leaves_seat h.seated (w := w) (Books.mem_todo ht) (by simp)
  have hseat : (s.workers[w]?).map (·.slot) = some slot := by simpa [gear] using h.seated.seated slot w hslot
  obtain ⟨worker, hworker, rfl⟩ := Option.map_eq_some_iff.1 hseat
  have hvacate := vacate_eq (s := s.setCode t left) hworker hslot respawn
  have hact : s.act (.step t) = ((s.setCode t left).vacate w respawn).setCode t left := by
    show s.step t = _
    exact step_eq hcode rfl rfl
  have hlt : t < s.threads.length := by simpa [books] using (List.getElem?_eq_some_iff.1 ht).1
  have hk : worker.slot < s.slots.length := (List.getElem?_eq_some_iff.1 hslot).1
  have hpos : 0 < s.workerCount := h.seated.count_pos hslot
  have hnew : (s.act (.step t)).code t = left := by
    obtain ⟨next, b', ⟨-, rfl⟩, -, -, hnew⟩ := h.does hcode rfl
    exact hnew
  refine ⟨⟨⟨worker.slot, hslot, ?_⟩, ?_, ?_⟩, hnew⟩
  · rw [hact, hvacate]
    cases respawn
    · exact List.getElem?_set_self hk
    · refine List.getElem?_set_self ?_
      rw [List.length_set]
      exact hk
  · rw [hact, hvacate]
    cases respawn
    · rfl
    · exact Nat.sub_add_cancel hpos
  · rintro rfl
    rw [hact, code_setCode_ne _ (Nat.ne_of_gt hlt), hvacate]
    simp [code, spawnWorker, spawn, setCode]

theorem decides (h : s.Steady) (hcode : s.code t = .decideRespawn w :: left) :
    Soon t 2 fun now => (s.run now).code t = left ∧ s.Replaces t w now := by
  refine Soon.step hcode (by simp) fun pre _ hcode' => ?_
  have hsteady := h.run pre
  have hnew : ((s.run pre).act (.step t)).code t = .vacate w (s.run pre).wants :: left := code_of_exec hcode' rfl rfl rfl
  refine Soon.step hnew (by simp) fun mid _ hcode'' => Soon.here ?_
  obtain ⟨hvacates, hleft⟩ := ((hsteady.act (.step t)).run mid).vacates hcode''
  refine ⟨?_, pre, mid, [], rfl, hvacates⟩
  rw [run_through, run_through]
  exact hleft

end Steady

/-! ## Every run -/

/-- Nothing that the host does costs a worker. -/
structure Withstands (s : Pool n) : Prop where
  /-- As many workers are counted as threads can take work, and retired workers have still to leave their slots. -/
  counted : s.workerCount = s.hands.length + s.leavers.length
  /-- A thread goes on with what it has to do, whatever comes of the instruction at hand. -/
  goesOn : ∀ t i rest, s.code t = i :: rest → rest <:+ (s.act (.step t)).code t
  /-- There is a watchdog when somebody is queued or runs, and it goes on until everything has ended. -/
  watched : s.queue ≠ [] ∨ s.running ≠ [] → ∃ t, s.watchdog = some t
  watches : ∀ t, s.watchdog = some t → (s.code t).any Instr.watches = true ∨ s.phase = .closed
  /-- When its work returns or crashes, a thread comes back for the next executor within ten steps of its own. By then it has
  closed the slice, unless that was taken from its worker. -/
  returned : ∀ t w e rest r, s.code t = .work w e :: rest →
    Soon t 10 fun now => ((s.act (.work t (.finish r))).run now).code t = [.nextSlice w] ∧
      (s.current? w = some e → (s.act (.work t (.finish r))).Closes t e now ∨ (s.act (.work t (.finish r))).Taken w e now)
  /-- A thread that takes a slice closes it within seven more steps, and then decides whether its worker is wanted back. -/
  abandoned : ∀ t w e left, s.code t = .takeAbandoned w :: left → s.current? w = some e →
    (∃ rest, left = .decideRespawn w :: rest) ∧
      Soon t 7 fun now => ((s.act (.step t)).run now).code t = left ∧ (s.act (.step t)).Closes t e now
  /-- It has the worker leave its slot within two steps, to another worker if one is wanted, and goes on. -/
  replaced : ∀ t w left, s.code t = .decideRespawn w :: left →
    Soon t 2 fun now => (s.run now).code t = left ∧ s.Replaces t w now

theorem create_steady (config : SchedulerConfig) (context : Metrics.Context) (log : LogFilter) (hosts : Vector Host n)
    (hcalm : ∀ e : Fin n, (hosts[e]).sink ≠ .host true) : (create config context log hosts).Steady := by
  refine ⟨create_manning config context log hosts, run_orderly config context log hosts [],
    run_placed config context log hosts [], run_unloading config context log hosts [], ?_,
    create_warded config context log hosts, fun e => ?_⟩
  · rw [books_create]
    intro w hw
    simp [Books.start] at hw
  · have hhost : ((create config context log hosts).executor e).host = hosts[e] := by
      simp [create, executor, Executor.create]
    rw [hhost]
    exact hcalm e

theorem Steady.withstands (h : s.Steady) : s.Withstands where
  counted := workerCount_eq h.toManning h.orderly h.peopled
  goesOn _ _ _ := h.keeps
  watched hbusy := by
    refine Option.ne_none_iff_exists'.1 fun hnone => ?_
    obtain ⟨hqueue, hrunning⟩ := h.warded.needed hnone
    exact hbusy.elim (absurd hqueue) (absurd hrunning)
  watches t ht := by
    rcases h.warded.alive t ht with hwatch | hclosed | ⟨e, hfail⟩
    · exact Or.inl hwatch
    · exact Or.inr hclosed
    · exact absurd hfail (h.calm e)
  returned t w e rest r hcode := by
    obtain ⟨hcur, hsoon⟩ := h.returns hcode r
    exact hsoon.mono (Nat.le_refl 10) fun now hnow => ⟨hnow.comes, fun hw => hnow.closed (hcur.trans hw)⟩
  abandoned t w e left hcode hcur := by
    obtain ⟨base, -, hleft⟩ := (h.fitted _ (List.mem_of_getElem? (codes_of_code hcode))).1
    exact ⟨⟨base, hleft⟩, h.takes hcode hcur⟩
  replaced _ _ _ := h.decides

/-- Whatever the host does when it is called, and however the work of its computers ends, no run costs a worker, as long as
no observer that was given to an executor fails. -/
theorem run_withstands (config : SchedulerConfig) (context : Metrics.Context) (log : LogFilter) (hosts : Vector Host n)
    (hcalm : ∀ e : Fin n, (hosts[e]).sink ≠ .host true) (actions : List (Action n)) :
    ((create config context log hosts).run actions).Withstands :=
  ((create_steady config context log hosts hcalm).run actions).withstands

/-- A host of which every callback fails, with an observer of its own that does not. -/
def troubled : Host := { computer := ⟨0⟩, sink := .host false, failure := fun _ => some "broken" }

/-- The work crashes. -/
def crashedWork : List (Action 1) := begun ++ .work 2 (.finish (.crashed none)) :: steps 2 7

/-- The work is not done after twenty seconds, and the watchdog gives up on its thread. -/
def givenUp : List (Action 1) := begun ++ steps 1 3 ++ .advance 20000000000 :: steps 1 18

theorem withstands_crashedWork :
    (∀ e : Fin 1, (#v[troubled][e]).sink ≠ .host true) ∧ ((sole troubled).run crashedWork).Withstands ∧
      ((sole troubled).run crashedWork).running = [] ∧ ((sole troubled).run crashedWork).hands = [2] ∧
      ((sole troubled).run givenUp).Withstands ∧ ((sole troubled).run givenUp).running = [] ∧
      ((sole troubled).run givenUp).hands = [3] := by
  have hcalm : ∀ e : Fin 1, (#v[troubled][e]).sink ≠ .host true := by decide
  exact ⟨hcalm, run_withstands _ _ _ _ hcalm crashedWork, by decide +kernel, by decide +kernel,
    run_withstands _ _ _ _ hcalm givenUp, by decide +kernel, by decide +kernel⟩

/-- A host whose observer fails. -/
def hostile : Host := { computer := ⟨0⟩, sink := .host true }

/-- After that the scheduler is stopped by thread 3, which waits for a second. -/
def stopAttempted : List (Action 1) := crashedWork ++ .call (.stop (.ofMillis 1000)) :: steps 3 5 ++ [.advance 1000000000]

/-- A failing observer tears down the thread that reports a slice to it. If that is the thread of the worker, the executor
stays on it, the worker is counted but nobody can take work, and a stop gives up on it. If it is the watchdog, the worker that
it retired keeps its slot, and there is no watchdog any more. -/
theorem observer_costs_worker :
    (((sole hostile).run crashedWork).running = [only] ∧
      (((sole hostile).run crashedWork).executor only).stage = .running ∧
      ((sole hostile).run crashedWork).workerCount = 1 ∧ ((sole hostile).run crashedWork).hands = [] ∧
      ((sole hostile).run crashedWork).leavers = []) ∧
    ((sole hostile).run stopAttempted).StopReturns 3 (.error (.shutdownTimeout 1)) ∧
    (((sole hostile).run givenUp).running = [only] ∧ ((sole hostile).run givenUp).slots = [some 0] ∧
      ((sole hostile).run givenUp).retired 0 = true ∧ ((sole hostile).run givenUp).hands = [] ∧
      ((sole hostile).run givenUp).phase = .running ∧ ((sole hostile).run givenUp).watchdog = some 1 ∧
      ((sole hostile).run givenUp).code 1 = []) := by
  refine ⟨by decide +kernel, ?_, by decide +kernel, by decide +kernel, by decide +kernel, by decide +kernel,
    by decide +kernel, by decide +kernel, ?_⟩
  · have hcount : ((sole hostile).run stopAttempted).workerCount = 1 := by decide +kernel
    have hreturns := stopReturns_error (s := (sole hostile).run stopAttempted) (t := 3) (by decide +kernel) (by omega)
    rwa [hcount] at hreturns
  · exact List.isEmpty_iff.1 (by decide +kernel)

end Pool

end FairShare.Scheduler
