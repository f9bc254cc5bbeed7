import FairShare.Proofs.Cadence
import FairShare.Proofs.Custody
import FairShare.Proofs.Stints
import FairShare.Proofs.Watching

/-!
# The accounts of slices

Every stint of an executor on a worker is accounted for once: whoever closes the slice, its own thread or one that takes
it from a worker that was retired over it, resets the timeout, makes the observations of the stint and ends the stay,
and no other thread does any of that meanwhile.
-/

namespace FairShare.Scheduler

variable {n : Nat}

namespace Account

/-- A stay that nobody ends does not end. -/
theorem Move.forgotten {a a' : Account} (h : a.Move a') (hp : a.Placed) (hr : a.running = 1) (hs : a.staying = 0) :
    a'.running = 1 ∧ a'.staying = 0 := by
  have hsingle := hp.single
  cases h with
  | drift _ _ _ _ hle => exact ⟨hr, Nat.le_zero.1 (hs ▸ hle)⟩
  | take a h =>
    simp only at hr hsingle
    omega
  | settle a h => simp at hs
  | requeue a h hph => simp at hs
  | _ => exact ⟨hr, hs⟩

end Account

/-- Whether an instruction calls the work of an executor, on a worker. -/
@[simp] def Instr.calls (w : WorkerId) (e : Fin n) : Instr n → Bool
  | .callWork w' e' => w' = w && e' = e
  | _ => false

theorem Instr.eq_of_calls {w : WorkerId} {e : Fin n} {i : Instr n} (h : i.calls w e = true) : i = .callWork w e := by
  cases i <;> simp_all

namespace Books

open Instr

variable {b b' : Books n} {g g' : Gear n} {a : Action n} {e : Fin n}

/-- An executor that is on no worker comes onto one when that takes it. -/
theorem taken_goes (hf : b.Fitted) (hg : Goes b g a b' g') (h : b.running.count e = 0) :
    b'.running.count e = 0 ∨ ∃ (t : ThreadId) (w : WorkerId), b'.codes[t]? = some [Instr.openSlice w e, .nextSlice w] := by
  cases hg with
  | step t i rest next c g' ht hw he hl hd =>
    rcases (outcome hw he hl hd).custody with ⟨hsub, -⟩ | ⟨w, e', hi, rfl, hrun, -⟩
    · exact Or.inl (List.count_eq_zero.2 fun hin => List.count_eq_zero.1 h (hsub e hin).1)
    · by_cases hne : e' = e
      · subst hne
        have hrest : rest = [.nextSlice w] := by
          rcases hi with rfl | rfl <;> exact (hf _ (List.mem_of_getElem? ht)).1
        subst hrest
        exact Or.inr ⟨t, w, codes_self ht he⟩
      · left
        show c.running.count e = 0
        rw [hrun, List.count_append, h]
        simp [hne]
  | _ => exact Or.inl h

theorem calls_le_works (w : WorkerId) (e : Fin n) (l : List (Instr n)) : l.countP (calls w e) ≤ l.countP (works w e) :=
  List.countP_mono_left fun i _ hi => by cases i <;> simp_all

theorem calls_begins (w : WorkerId) (e : Fin n) (code : List (Instr n)) (h : Begins code) : code.countP (calls w e) = 0 := by
  rcases h with ⟨v, rfl⟩ | rfl <;> simp

/-- Whoever makes up the account of a slice calls no work after that. -/
theorem Noted.calls {rest : List (Instr n)} (h : Noted rest) (w : WorkerId) (e : Fin n) : rest.countP (calls w e) = 0 := by
  obtain ⟨accounts, e', left, ha, ⟨v, hleft⟩, rfl⟩ := h
  refine List.countP_eq_zero.2 fun x hx => ?_
  rcases List.mem_append.1 hx with hx | hx
  · rcases ha x hx with ⟨e'', o, rfl⟩ | ⟨e'', before, after, rfl⟩ <;> simp
  · rcases hleft with rfl | ⟨base, rfl | rfl | ⟨ws, rfl⟩, rfl⟩ <;> simp at hx <;> grind [Instr.calls]

/-- A worker that has a slice does not publish another one. -/
theorem Orderly.not_publish (ho : b.Orderly) (hf : b.Fitted) {w : WorkerId} (hcur : b.current[w]? = some (some e))
    {t : ThreadId} {e' : Fin n} {bytes : UInt64} {rest : List (Instr n)} (ht : b.codes[t]? = some (.publish w e' bytes :: rest)) :
    False := by
  obtain ⟨t', code, bytes', ht', hclose, hnext⟩ := ho.closer hcur
  obtain rfl : rest = [.nextSlice w] := (hf _ (List.mem_of_getElem? ht)).1
  obtain rfl := ho.thread_unique ht ht' (by simp) hnext
  rw [ht] at ht'
  obtain rfl := Option.some.inj ht'
  simp at hclose

/-- A slice stays with its worker while nobody calls its work, closes it or takes it. -/
theorem slice_goes (ho : b.Orderly) (hf : b.Fitted) {w : WorkerId} (hcur : b.current[w]? = some (some e))
    (hhead : ∀ t i rest, a = .step t → b.codes[t]? = some (i :: rest) →
      i ≠ .callWork w e ∧ withdraws w i = false) (hg : Goes b g a b' g') :
    b'.current[w]? = some (some e) ∧ (∀ bytes, .closeSlice w e bytes ∈ b'.todo → .closeSlice w e bytes ∈ b.todo) ∧
      b'.todo.countP (calls w e) = b.todo.countP (calls w e) := by
  cases hg with
  | rest => exact ⟨hcur, fun _ => id, rfl⟩
  | advance => exact ⟨hcur, fun _ => id, rfl⟩
  | arrive c =>
    refine ⟨hcur, fun bytes hin => ?_, ?_⟩
    · simpa [todo] using hin
    · rw [countP_arrive]
      simp
  | perform t w' e' rest next x ht hx =>
    have hclose : ∀ bytes, .closeSlice w e bytes ∉ next := fun bytes hin => by cases hx.leads.yields hin
    have hnone : next.countP (calls w e) = 0 :=
      List.countP_eq_zero.2 fun y hy => by cases hx.leads.yields hy <;> simp
    refine ⟨hcur, fun bytes hin => (mem_todo_replace ht hin).resolve_right (hclose bytes), ?_⟩
    have hcount := countP_replace (calls w e) ht next
    rw [hnone, List.countP_cons_of_neg (by simp)] at hcount
    exact hcount
  | step t i rest next c g' ht hw he hl hd =>
    obtain ⟨hcall, hwithdraw⟩ := hhead t i rest rfl ht
    -- A slice is to be called and closed when it was just published, and there is one already.
    have hpublish : ∀ e' bytes, i ≠ .publish w e' bytes := by
      rintro e' bytes rfl
      exact ho.not_publish hf hcur ht
    have hclose : ∀ bytes, .closeSlice w e bytes ∉ next := by
      intro bytes hin
      cases hl.yields hin
      exact hpublish _ _ rfl
    have hnone : next.countP (calls w e) = 0 := by
      refine List.countP_eq_zero.2 fun y hy hcalls => ?_
      obtain rfl := eq_of_calls hcalls
      cases hl.yields hy
      exact hpublish _ _ rfl
    refine ⟨?_, fun bytes hin => ?_, ?_⟩
    · rcases (outcome hw he hl hd).current_keep hcur with hkeep | hkeep | ⟨e', bytes, rfl⟩
      · exact hkeep
      · rw [hwithdraw] at hkeep
        cases hkeep
      · exact absurd rfl (hpublish e' bytes)
    · rcases mem_todo_step ht he hin with hold | hin | ⟨code, hbegins, hin⟩
      · exact hold
      · exact absurd hin (hclose bytes)
      · rcases hbegins with ⟨v, rfl⟩ | rfl <;> simp at hin
    · have hcount := countP_step (calls_begins w e) ht he
      rw [hnone, List.countP_cons_of_neg fun hi => hcall (eq_of_calls hi)] at hcount
      exact hcount
  | tear t e' o rest ht hfail =>
    refine ⟨hcur, fun bytes hin => (mem_todo_set hin).resolve_right (by simp), ?_⟩
    have hset := countP_flatten_set (calls w e) ht []
    have hnoted : Noted rest := (hf _ (List.mem_of_getElem? ht)).1
    rw [List.countP_cons_of_neg (by simp), Noted.calls hnoted] at hset
    exact hset

end Books

namespace Pool

open Instr

variable {s : Pool n} {e : Fin n} {a : Action n} {tail : List Moment}

/-- Where an executor stands, with the moments of its stint so far. -/
inductive Standing (s : Pool n) (e : Fin n) : List Moment → Prop
  /-- It is on no worker. -/
  | away (h : s.books.running.count e = 0) : Standing s e []
  /-- A thread has its stay to end, and no worker has its slice. -/
  | there (t : ThreadId) {tail : List Moment} (h : Point s.context.standard e (s.code t) (s.startOf e) tail) :
    Standing s e tail
  /-- A worker has its slice. -/
  | inSlice (w : WorkerId) (start : Instant) (bytes : UInt64) (called : Bool)
    (hw : s.books.current[w]? = some (some e)) (hstart : s.startOf e = some start)
    (hclose : ∀ bytes', .closeSlice w e bytes' ∈ s.books.todo → bytes' = bytes)
    (hcalled : called = true ↔ s.books.todo.countP (calls w e) = 0) :
    Standing s e (.started start :: .noted w bytes :: if called then [.called w] else [])
  /-- The thread that had its stay to end was torn down. -/
  | torn {tail : List Moment} (hrun : s.books.running.count e = 1) (hstay : s.books.todo.countP (stays e) = 0)
    (hcur : s.books.current.count (some e) = 0) (hfail : (s.gear.host e).sink = .host true)
    (h : Stint.Unfinished s.context.standard tail) : Standing s e tail

/-- The moment of an action ends stints and begins one, or goes on with the one that there is. -/
def Advances (s : Pool n) (e : Fin n) (a : Action n) (tail : List Moment) : Prop :=
  ∃ (stints : List Stint) (tail' : List Moment), (∀ v ∈ stints, v.Timely) ∧
    tail ++ (s.moment? e a).toList = stints.flatMap (Stint.moments s.context.standard) ++ tail' ∧
    (s.act a).Standing e tail'

theorem Advances.on {o : Option Moment} (hm : s.moment? e a = o) (h : (s.act a).Standing e (tail ++ o.toList)) :
    s.Advances e a tail := ⟨[], tail ++ o.toList, by simp, by simp [hm], h⟩

theorem Standing.of_code {t : ThreadId} {code : List (Instr n)} (hcode : (s.act a).code t = code)
    (h : Point s.context.standard e code ((s.act a).startOf e) tail) : (s.act a).Standing e tail := by
  refine .there t ?_
  rw [hcode, act_standard]
  exact h

/-! ## Steps -/

/-- What a step does that need not wait and does not pass on an observation. -/
theorem step_does {t : ThreadId} {i : Instr n} {rest : List (Instr n)} (h : s.code t = i :: rest)
    (hwait : s.mustWait t i = false) (hobserve : ∀ e o, i ≠ .account e o) :
    ∃ next b', i.Effect { s.books with codes := s.books.codes.set t rest } b' next ∧ i.Leads next ∧
      i.Drive { s.books with codes := s.books.codes.set t rest } b' s.gear (s.act (.step t)).gear next ∧
      (s.act (.step t)).books = { b' with codes := b'.codes.set t (next ++ rest) } ∧
      (s.act (.step t)).code t = next ++ rest := by
  rcases s.step_goes t h hwait with ⟨next, b', g', he, hl, hd, hbooks, hgear⟩ | ⟨e, o, rfl, -⟩
  · exact ⟨next, b', he, hl, hgear ▸ hd, hbooks, code_step (codes_of_code h) he hbooks⟩
  · exact absurd rfl (hobserve e o)

/-- The clock of an executor runs on when a thread does nothing about it. -/
theorem startOf_step {t : ThreadId} {i : Instr n} {rest : List (Instr n)} (h : s.code t = i :: rest)
    (hstart : i ≠ .call (.startTimer e)) (hclear : i ≠ .call (.resetTimer e)) (hreset : ∀ slice, i ≠ .resetTimer e slice) :
    (s.act (.step t)).startOf e = s.startOf e := by
  rcases s.startOf_act (.step t) e with hkeep | ⟨t', j, rest', ht, hcode, hj⟩
  · exact hkeep
  · cases ht
    obtain ⟨rfl, -⟩ := List.cons.inj (h.symm.trans hcode)
    rcases hj with ⟨rfl, -⟩ | ⟨rfl | ⟨slice, rfl⟩, -⟩
    · exact absurd rfl hstart
    · exact absurd rfl hclear
    · exact absurd rfl (hreset slice)

theorem moment?_step {t : ThreadId} {i : Instr n} {rest : List (Instr n)} (h : s.code t = i :: rest) :
    s.moment? e (.step t) = s.momentOf e i := by
  rw [moment?, head?_step h]
  rfl

/-- A step that leaves the threads alone and tears nothing down. -/
theorem code_of_exec {s' : Pool n} {t : ThreadId} {i : Instr n} {rest next : List (Instr n)} (h : s.code t = i :: rest)
    (hwait : s.mustWait t i = false) (he : (s.setCode t rest).exec t i = (s', some next))
    (hs' : s'.threads = (s.setCode t rest).threads) : (s.act (.step t)).code t = next ++ rest := by
  obtain ⟨thread, ht⟩ := thread_of_code h
  exact (step_thread h hwait he (hs' ▸ ht)).1

theorem code_resetTimer {t : ThreadId} {slice : SliceRecord} {rest : List (Instr n)}
    (h : s.code t = .resetTimer e slice :: rest) : (s.act (.step t)).code t =
      s.account e ((s.executor e).timeout.executionTime s.clock) slice ++ .settle e :: rest := by
  refine (code_of_exec h rfl rfl rfl).trans ?_
  rw [List.append_assoc]
  rfl

theorem code_noteAllocated {t : ThreadId} {w : WorkerId} {rest : List (Instr n)}
    (h : s.code t = .noteAllocated w e :: rest) (hw : w < s.workers.length) :
    (s.act (.step t)).code t = .publish w e (s.allocated w) :: rest := by
  have hworker : (s.setCode t rest).workers[w]? = some s.workers[w] := List.getElem?_eq_getElem hw
  have hbytes : s.allocated w = s.workers[w].allocated := by simp [allocated, hw]
  have he : (s.setCode t rest).exec t (.noteAllocated w e) = (s.setCode t rest, some [.publish w e (s.allocated w)]) := by
    simp [exec, hworker, hbytes]
  exact code_of_exec h rfl he rfl

theorem code_closeSlice {t : ThreadId} {w : WorkerId} {e' : Fin n} {bytes : UInt64} {rest : List (Instr n)}
    (h : s.code t = .closeSlice w e bytes :: rest) (hw : s.current? w = some e') :
    (s.act (.step t)).code t = .resetTimer e (.ran bytes (s.allocated w)) :: rest := by
  obtain ⟨worker, hworker, hcur⟩ := Option.bind_eq_some_iff.1 hw
  have hbytes : s.allocated w = worker.allocated := by simp [allocated, hworker]
  have hworker' : (s.setCode t rest).workers[w]? = some worker := hworker
  have he : (s.setCode t rest).exec t (.closeSlice w e bytes) =
      ((s.setCode t rest).modifyWorker w fun worker => { worker with current := none },
        some [.resetTimer e (.ran bytes (s.allocated w))]) := by
    simp [exec, hworker', hcur, hbytes]
  exact code_of_exec h rfl he rfl

/-- The observations of a stint are on the account of its slice. -/
theorem account_notes (s : Pool n) (e : Fin n) (elapsed : Nat) (slice : SliceRecord) :
    (s.account e elapsed slice).length ≤ 2 ∧
      (∀ x ∈ s.account e elapsed slice, (∃ o, x = .account e o) ∨ ∃ before after, x = .warnAllocation e before after) ∧
      (s.account e elapsed slice).filterMap (Instr.observation? e) =
        match slice with
        | .never => []
        | .ran before after =>
          .event s.context.standard.computerTasks (toWord elapsed) ::
            if before < after then [.event s.context.standard.allocation (after - before)] else []
        | .abandoned => [.event s.context.standard.computerTasks (toWord elapsed)] := by
  unfold account
  cases slice with
  | never => simp
  | abandoned => simp [Instr.observation?]
  | ran before after =>
    simp only
    split
    · simp [Instr.observation?]
    · split <;> simp [Instr.observation?]

namespace Traced

/-! ## On no worker -/

/-- Nothing happens to an executor that nobody has to do with. -/
theorem moment?_none (h : s.Traced e) (hstay : s.books.todo.countP (stays e) = 0)
    (hcur : s.books.current.count (some e) = 0) (a : Action n) : s.moment? e a = none := by
  refine Option.eq_none_iff_forall_not_mem.2 fun m hsome => ?_
  obtain ⟨i, hi, hm⟩ := Option.bind_eq_some_iff.1 hsome
  cases a with
  | step t =>
    obtain ⟨rest, hcode⟩ := List.head?_eq_some_iff.1 hi
    have ht := codes_of_code hcode
    rcases momentOf_elim hm with hbusy | ⟨w, hw, -⟩
    · have hpos := h.busy ht hbusy
      have hle : (i :: rest).countP (stays e) ≤ s.books.todo.countP (stays e) :=
        (List.sublist_flatten_of_mem (List.mem_of_getElem? ht)).countP_le
      omega
    · have hpos : 0 < s.books.current.count (some e) := List.count_pos_iff.2 (List.mem_of_getElem? hw)
      omega
  | _ => cases hi

theorem advances_away (h : s.Traced e) (haway : s.books.running.count e = 0) (a : Action n) : s.Advances e a [] := by
  have hrun := Books.stays_le_running (h.placed e)
  refine .on (h.moment?_none (by omega) (by omega) a) ?_
  rcases Books.taken_goes h.fitted (act_goes s a) haway with hr | ⟨t, w, ht⟩
  · exact .away hr
  · refine .of_code (t := t) ?_ (.taken w _)
    rw [code_eq, ht]
    rfl

theorem advances_torn (h : s.Traced e) (hrun : s.books.running.count e = 1) (hstay : s.books.todo.countP (stays e) = 0)
    (hcur : s.books.current.count (some e) = 0) (hfail : (s.gear.host e).sink = .host true)
    (htail : Stint.Unfinished s.context.standard tail) (a : Action n) : s.Advances e a tail := by
  refine .on (h.moment?_none hstay hcur a) ?_
  have hmove := ((act_moves s a).account h.orderly e).forgotten (h.placed e) hrun (by simp [Books.account, hstay, hcur])
  have hstaying : (s.act a).books.todo.countP (stays e) + (s.act a).books.current.count (some e) = 0 := hmove.2
  refine .torn hmove.1 (by omega) (by omega) ?_ ?_
  · rw [Books.host_goes (act_goes s a)]
    exact hfail
  · rw [act_standard, Option.toList_none, List.append_nil]
    exact htail

/-! ## With its stay to be ended by a thread -/

variable {t : ThreadId} {w : WorkerId}

/-- While a thread has the stay of an executor to end, nothing happens to the executor but by that thread. -/
theorem apart (h : s.Traced e) (hc : 0 < (s.code t).countP (stays e)) {a : Action n} (ha : a ≠ .step t) :
    s.moment? e a = none ∧ (s.act a).startOf e = s.startOf e := by
  have ht : ∀ t, 0 < (s.code t).countP (stays e) → s.books.codes[t]? = some (s.code t) := by
    intro t hc
    cases hcode : s.code t with
    | nil => simp [hcode] at hc
    | cons i rest => exact codes_of_code hcode
  have hother : ∀ t' i rest, a = .step t' → s.code t' = i :: rest →
      ¬(stays e i = true ∨ i = .call (.startTimer e) ∨ ∃ o, i = .account e o) := by
    intro t' i rest hstep hcode hbusy
    have hpos := h.busy (codes_of_code hcode) hbusy
    exact ha (h.sole (ht t hc) (codes_of_code hcode) hc hpos ▸ hstep)
  constructor
  · refine Option.eq_none_iff_forall_not_mem.2 fun m hsome => ?_
    obtain ⟨i, hi, hm⟩ := Option.bind_eq_some_iff.1 hsome
    cases a with
    | step t' =>
      obtain ⟨rest, hcode⟩ := List.head?_eq_some_iff.1 hi
      rcases momentOf_elim hm with hbusy | ⟨w, hw, -⟩
      · exact hother t' i rest rfl hcode hbusy
      · exact h.not_current (ht t hc) hc w hw
    | _ => cases hi
  · rcases s.startOf_act a e with hkeep | ⟨t', i, rest, hstep, hcode, ⟨rfl, -⟩ | ⟨rfl | ⟨slice, rfl⟩, -⟩⟩
    · exact hkeep
    · exact absurd (Or.inr (Or.inl rfl)) (hother t' _ rest hstep hcode)
    · exact absurd (Books.mem_todo (codes_of_code hcode)) h.untouched
    · exact absurd (Or.inl (by simp)) (hother t' _ rest hstep hcode)

/-- That thread is still there. -/
theorem code_apart (hp : Point s.context.standard e (s.code t) (s.startOf e) tail) {a : Action n}
    (ha : a ≠ .step t) : (s.act a).code t = s.code t :=
  act_code s ha hp.not_work fun hnil => by simpa [hnil] using hp.stays

theorem advances_apart (h : s.Traced e) (hp : Point s.context.standard e (s.code t) (s.startOf e) tail) {a : Action n}
    (ha : a ≠ .step t) : s.Advances e a tail := by
  obtain ⟨hnone, hstart⟩ := h.apart hp.stays ha
  refine .on hnone (.of_code (code_apart hp ha) ?_)
  rw [hstart, Option.toList_none, List.append_nil]
  exact hp

/-! ## By that thread -/

theorem advances_taken (hcode : s.code t = [.openSlice w e, .nextSlice w]) : s.Advances e (.step t) [] := by
  obtain ⟨next, b', -, -, ⟨-, ⟨hphase, rfl⟩ | ⟨hphase, rfl⟩⟩, -, hnew⟩ := step_does hcode rfl (by simp)
  · have hrun : s.phase = .running := hphase
    refine .on (o := none) ?_ (.of_code hnew (.opening w _ .clear))
    rw [moment?_step hcode]
    simp [momentOf, hrun, Phase.isStopping]
  · have hstop : s.phase ≠ .running := hphase
    refine .on (o := some .skipped) ?_ (.of_code hnew (.unloading w _))
    rw [moment?_step hcode]
    simp [momentOf, hstop, Phase.isStopping]

/-- An executor that a worker unloads is not found waiting. -/
theorem advances_unloading (h : s.Traced e)
    (hcode : s.code t = [.call (.unload e), .resetTimer e .never, .nextSlice w]) : s.Advances e (.step t) [.skipped] := by
  obtain ⟨next, b', ⟨-, hnext⟩, -, -, -, hnew⟩ := step_does hcode rfl (by simp)
  have hpos : 0 < s.books.todo.countP (stays e) :=
    List.countP_pos_iff.2 ⟨.resetTimer e .never, List.mem_flatten.2
      ⟨_, List.mem_of_getElem? (codes_of_code hcode), by simp⟩, by simp⟩
  have hrun : s.books.running.count e ≠ 0 := by
    have := Books.stays_le_running (h.placed e)
    omega
  have hqueued : s.books.stage e ≠ .queued := fun hst => hrun ((h.placed e).queued hst).1
  have hidle : s.books.stage e ≠ .idle := by
    intro hst
    have hzero : _ + (s.books.account e).queued + (s.books.account e).running = 0 := (h.placed e).idle hst
    exact hrun (Nat.eq_zero_of_add_eq_zero_left hzero)
  have hnil : next = [] := by
    rw [hnext]
    dsimp only
    cases hst : s.books.stage e with
    | queued => exact absurd hst hqueued
    | idle => exact absurd hst hidle
    | _ => rfl
  subst hnil
  exact .on (o := none) (moment?_step hcode) (.of_code hnew (.unloaded w _))

theorem advances_opening {code : List (Instr n)} (hopen : Opening w e false code) (hcode : s.code t = code) :
    s.Advances e (.step t) [] := by
  cases hopen with
  | clear =>
    obtain ⟨next, b', -, rfl, -, -, hnew⟩ := step_does hcode rfl (by simp)
    exact .on (o := none) (moment?_step hcode) (.of_code hnew (.opening w _ .start))
  | start =>
    obtain ⟨next, b', -, rfl, hgear, -, hnew⟩ := step_does hcode rfl (by simp)
    have hstart : (s.act (.step t)).startOf e = some s.clock := by
      show ((s.act (.step t)).gear.timeout e).clock.start = some s.clock
      rw [show (s.act (.step t)).gear = s.gear.onTimeout e (·.startClock s.gear.clock) from hgear]
      simp only [Gear.onTimeout, if_pos]
      rfl
    refine .on (o := some (.started s.clock)) ?_ (.of_code hnew ?_)
    · rw [moment?_step hcode]
      simp [momentOf]
    · rw [hstart]
      exact .started w s.clock (Or.inl rfl)

theorem advances_started (h : s.Traced e) {start : Instant} (hstart : s.startOf e = some start) {code : List (Instr n)}
    (hopen : code = [.call (.refresh e), .noteAllocated w e, .nextSlice w] ∨ code = [.noteAllocated w e, .nextSlice w])
    (hcode : s.code t = code) : s.Advances e (.step t) [.started start] := by
  rcases hopen with rfl | rfl
  · obtain ⟨next, b', -, rfl, -, -, hnew⟩ := step_does hcode rfl (by simp)
    refine .on (o := none) (moment?_step hcode) (.of_code hnew ?_)
    rw [startOf_step hcode (by simp) (by simp) (by simp), hstart]
    exact .started w start (Or.inr rfl)
  · have hw : w < s.workers.length := by
      have := h.orderly.started (Books.mem_todo (codes_of_code hcode)) (w := w) (by simp)
      simpa [books] using this
    refine .on (o := some (.noted w (s.allocated w))) ?_ (.of_code (code_noteAllocated hcode hw) ?_)
    · rw [moment?_step hcode]
      simp [momentOf]
    · rw [startOf_step hcode (by simp) (by simp) (by simp), hstart]
      exact .noted w start _

theorem advances_noted (h : s.Traced e) {start : Instant} (hstart : s.startOf e = some start) {bytes : UInt64}
    (hcode : s.code t = [.publish w e bytes, .nextSlice w]) :
    s.Advances e (.step t) [.started start, .noted w bytes] := by
  have ht := codes_of_code hcode
  have hmem := Books.mem_todo ht
  have hw := h.orderly.started hmem (w := w) (by simp)
  obtain ⟨next, b', heff, -, -, hbooks, hnew⟩ := step_does hcode rfl (by simp)
  -- The worker has nothing else of a slice to do.
  have hnone : s.books.todo.countP (closes w e) = 0 := by
    have hone := h.orderly.one_slice w
    have hle := countP_slices_le w e s.books.todo
    have hpos : 0 < s.books.todo.countP (prepares w e) := List.countP_pos_iff.2 ⟨_, hmem, by simp⟩
    omega
  obtain ⟨hb', rfl⟩ := heff
  have hcur : (s.act (.step t)).books.current[w]? = some (some e) := by
    rw [hbooks, hb']
    exact List.getElem?_set_self hw
  have hself : [.callWork w e, .closeSlice w e bytes, .nextSlice w] ∈ (s.act (.step t)).books.codes := by
    rw [hbooks]
    exact List.mem_of_getElem? (Books.codes_self ht ⟨hb', rfl⟩)
  refine .on (o := none) (moment?_step hcode) (.inSlice w start bytes false hcur ?_ (fun bytes' hclose => ?_) ?_)
  · rw [startOf_step hcode (by simp) (by simp) (by simp), hstart]
  · rw [hbooks] at hclose
    rcases Books.mem_todo_step ht ⟨hb', rfl⟩ hclose with hold | hnext | ⟨code, hbegins, hin⟩
    · have hpos : 0 < s.books.todo.countP (closes w e) := List.countP_pos_iff.2 ⟨_, hold, by simp⟩
      omega
    · simpa using hnext
    · rcases hbegins with ⟨v, rfl⟩ | rfl <;> simp at hin
  · have hin : .callWork w e ∈ (s.act (.step t)).books.todo := List.mem_flatten.2 ⟨_, hself, by simp⟩
    have hpos : 0 < (s.act (.step t)).books.todo.countP (calls w e) := List.countP_pos_iff.2 ⟨_, hin, by simp⟩
    simp only [Bool.false_eq_true, false_iff]
    omega

/-- The reset of a timeout is the end of a stint, of which the observations are then made. -/
theorem point_reset {v : Stint} (hv : v.Timely) {slice : SliceRecord} {left : List (Instr n)}
    (hcode : s.code t = .resetTimer e slice :: left) (hslice : v.slice = tail ++ [.ended s.clock])
    (hobs : v.observations s.context.standard =
      (s.account e ((s.executor e).timeout.executionTime s.clock) slice).filterMap (Instr.observation? e)) :
    s.moment? e (.step t) = some (.ended s.clock) ∧ Point s.context.standard e ((s.act (.step t)).code t)
      ((s.act (.step t)).startOf e) (tail ++ [.ended s.clock]) := by
  constructor
  · rw [moment?_step hcode]
    simp [momentOf]
  · obtain ⟨hlen, hn, -⟩ := account_notes s e ((s.executor e).timeout.executionTime s.clock) slice
    have hpoint := Point.accounting (m := s.context.standard) (e := e) v hv [] _ left ((s.act (.step t)).startOf e) hlen hn
      hobs
    rw [code_resetTimer hcode]
    rwa [List.map_nil, List.append_nil, hslice] at hpoint

theorem advances_reset {v : Stint} (hv : v.Timely) {slice : SliceRecord} {left : List (Instr n)}
    (hcode : s.code t = .resetTimer e slice :: left) (hslice : v.slice = tail ++ [.ended s.clock])
    (hobs : v.observations s.context.standard =
      (s.account e ((s.executor e).timeout.executionTime s.clock) slice).filterMap (Instr.observation? e)) :
    s.Advances e (.step t) tail := by
  obtain ⟨hm, hp⟩ := point_reset hv hcode hslice hobs
  exact .on hm (.of_code rfl hp)

theorem executionTime_of_startOf {start : Instant} (h : s.startOf e = some start) :
    (s.executor e).timeout.executionTime s.clock = s.clock - start := by
  unfold TimeoutState.executionTime
  rw [show (s.executor e).timeout.clock.start = some start from h]

theorem advances_settle {v : Stint} (hv : v.Timely) {left : List (Instr n)}
    (hcode : s.code t = .settle e :: left) :
    s.Advances e (.step t) (v.slice ++ (v.observations s.context.standard).map .observed) := by
  obtain ⟨next, b', ⟨hsettles, -⟩, -, -, hbooks, -⟩ := step_does hcode rfl (by simp)
  have hm : s.moment? e (.step t) = some .settled := by
    rw [moment?_step hcode]
    simp [momentOf]
  refine ⟨[v], [], by simpa using hv, by simp [hm, Stint.moments], .away ?_⟩
  rw [hbooks]
  obtain ⟨c, faults, arrival, hc, -, rfl⟩ := hsettles
  obtain ⟨runtime, rfl, -⟩ := hc.eq
  have hnone : (s.books.running.filter (· != e)).count e = 0 := List.count_eq_zero.2 (by simp)
  split <;> exact hnone

/-- An observation of a stint is made, or tears down the thread that makes it. -/
theorem advances_account (h : s.Traced e) {v : Stint} (hv : v.Timely) {told : List Metrics.Observation}
    {o : Metrics.Observation} {notes left : List (Instr n)} (hlen : notes.length ≤ 2)
    (hn : ∀ x ∈ notes, (∃ o, x = .account e o) ∨ ∃ before after, x = .warnAllocation e before after)
    (ho : v.observations s.context.standard = told ++ o :: notes.filterMap (Instr.observation? e))
    (hcode : s.code t = .account e o :: (notes ++ .settle e :: left)) :
    s.Advances e (.step t) (v.slice ++ told.map .observed) := by
  have hm : s.moment? e (.step t) = some (.observed o) := by
    rw [moment?_step hcode]
    simp [momentOf]
  have htail : v.slice ++ told.map .observed ++ (some (Moment.observed o)).toList =
      v.slice ++ (told ++ [o]).map .observed := by simp
  refine .on hm ?_
  rw [htail]
  rcases s.step_goes t hcode rfl with ⟨next, b', g', he, rfl, -, hbooks, -⟩ | ⟨e', o', hi, hsink, hbooks, hgear⟩
  · have hnew := code_step (codes_of_code hcode) he hbooks
    exact .of_code hnew (.accounting v hv (told ++ [o]) notes left _ hlen hn (by rw [ho, List.append_assoc]; rfl))
  · have hrun := Books.stays_le_running (h.placed e)
    have hone := Books.running_le_one (h.placed e)
    have hset : (s.books.codes.set t []).flatten.countP (stays e) + _ = s.books.todo.countP (stays e) + _ :=
      countP_flatten_set (stays e) (codes_of_code hcode) []
    have hpos : 0 < (Instr.account e o :: (notes ++ .settle e :: left)).countP (stays e) :=
      List.countP_pos_iff.2 ⟨.settle e, by simp, by simp⟩
    rw [List.countP_nil] at hset
    have hb : (s.act (.step t)).books = { s.books with codes := s.books.codes.set t [] } := hbooks
    obtain ⟨rfl, rfl⟩ := Instr.account.inj hi
    refine .torn ?_ ?_ ?_ ((congrArg (fun g => (g.host e).sink) hgear).trans hsink) ?_
    · rw [hb]
      show s.books.running.count e = 1
      omega
    · rw [hb]
      show (s.books.codes.set t []).flatten.countP (stays e) = 0
      omega
    · rw [hb]
      show s.books.current.count (some e) = 0
      omega
    · rw [act_standard]
      refine Stint.unfinished_of_prefix hv ⟨(notes.filterMap (Instr.observation? e)).map .observed, ?_⟩
      rw [ho]
      simp

theorem advances_accounting (h : s.Traced e) {v : Stint} (hv : v.Timely) {told : List Metrics.Observation}
    {notes left : List (Instr n)} (hlen : notes.length ≤ 2)
    (hn : ∀ x ∈ notes, (∃ o, x = .account e o) ∨ ∃ before after, x = .warnAllocation e before after)
    (ho : v.observations s.context.standard = told ++ notes.filterMap (Instr.observation? e))
    (hcode : s.code t = notes ++ .settle e :: left) : s.Advances e (.step t) (v.slice ++ told.map .observed) := by
  cases notes with
  | nil =>
    rw [List.filterMap_nil, List.append_nil] at ho
    rw [← ho]
    exact advances_settle hv hcode
  | cons x notes =>
    have hrest : ∀ x ∈ notes, (∃ o, x = .account e o) ∨ ∃ before after, x = .warnAllocation e before after :=
      fun y hy => hn y (List.mem_cons_of_mem x hy)
    rcases hn x (List.mem_cons_self ..) with ⟨o, rfl⟩ | ⟨before, after, rfl⟩
    · exact h.advances_account hv (Nat.le_of_succ_le hlen) hrest (by simpa [Instr.observation?] using ho) hcode
    · obtain ⟨next, b', -, rfl, -, -, hnew⟩ := step_does hcode rfl (by simp)
      have ho : v.observations s.context.standard = told ++ notes.filterMap (Instr.observation? e) := ho
      refine .on (o := none) (moment?_step hcode) (.of_code hnew ?_)
      rw [Option.toList_none, List.append_nil]
      exact .accounting v hv told notes left _ (Nat.le_of_succ_le hlen) hrest ho

/-- A thread that has the stay of an executor to end goes on with the stint. -/
theorem advances_there (h : s.Traced e) (hp : Point s.context.standard e (s.code t) (s.startOf e) tail) :
    s.Advances e (.step t) tail := by
  generalize hcode : s.code t = code at hp
  generalize hstart : s.startOf e = clock at hp
  cases hp with
  | taken w => exact advances_taken hcode
  | unloading w => exact h.advances_unloading hcode
  | unloaded w => exact advances_reset (v := .skipped s.clock) trivial hcode rfl (by simp [Stint.observations, account])
  | opening w clock hopen => exact advances_opening hopen hcode
  | started w start hopen => exact h.advances_started hstart hopen hcode
  | noted w start bytes => exact h.advances_noted hstart hcode
  | returned w start before after =>
    refine advances_reset (v := .returned w start before after s.clock) (h.punctual start hstart) hcode rfl ?_
    rw [(account_notes ..).2.2, executionTime_of_startOf hstart]
    rfl
  | abandoned w start bytes called left =>
    refine advances_reset (v := .abandoned w start bytes called s.clock) (h.punctual start hstart) hcode ?_ ?_
    · simp [Stint.slice]
    · rw [(account_notes ..).2.2, executionTime_of_startOf hstart]
      rfl
  | accounting v hv told notes left clock hlen hn ho => exact h.advances_accounting hv hlen hn ho hcode

/-! ## With its slice on a worker -/

/-- While a worker has the slice of an executor, nobody has its stay to end. -/
theorem free (h : s.Traced e) (hcur : s.books.current[w]? = some (some e)) {i : Instr n} {rest : List (Instr n)}
    (hcode : s.code t = i :: rest) : ¬(stays e i = true ∨ i = .call (.startTimer e) ∨ ∃ o, i = .account e o) := fun hbusy =>
  h.not_current (codes_of_code hcode) (h.busy (codes_of_code hcode) hbusy) w hcur

theorem startOf_inSlice (h : s.Traced e) (hcur : s.books.current[w]? = some (some e)) (a : Action n) :
    (s.act a).startOf e = s.startOf e := by
  rcases s.startOf_act a e with hkeep | ⟨t, i, rest, -, hcode, ⟨rfl, -⟩ | ⟨rfl | ⟨slice, rfl⟩, -⟩⟩
  · exact hkeep
  · exact absurd (Or.inr (Or.inl rfl)) (h.free hcur hcode)
  · exact absurd (Books.mem_todo (codes_of_code hcode)) h.untouched
  · exact absurd (Or.inl (by simp)) (h.free hcur hcode)

theorem advances_call (h : s.Traced e) {start : Instant} {bytes : UInt64} {called : Bool} {rest : List (Instr n)}
    (hcur : s.books.current[w]? = some (some e)) (hstart : s.startOf e = some start)
    (hclose : ∀ bytes', .closeSlice w e bytes' ∈ s.books.todo → bytes' = bytes)
    (hcalled : called = true ↔ s.books.todo.countP (calls w e) = 0) (hcode : s.code t = .callWork w e :: rest) :
    s.Advances e (.step t) (.started start :: .noted w bytes :: if called then [.called w] else []) := by
  have ht := codes_of_code hcode
  have hpos : 0 < s.books.todo.countP (calls w e) := List.countP_pos_iff.2 ⟨_, Books.mem_todo ht, by simp⟩
  obtain rfl : called = false := by
    cases called with
    | false => rfl
    | true => have := hcalled.1 rfl; omega
  obtain ⟨next, b', heff, rfl, -, hbooks, -⟩ := step_does hcode rfl (by simp)
  have hb' : b' = _ := heff
  refine .on (o := some (.called w)) ?_ ?_
  · rw [moment?_step hcode]
    simp [momentOf, (current_eq s w e).1 hcur]
  · refine .inSlice w start bytes true ?_ ((h.startOf_inSlice hcur _).trans hstart) (fun bytes' hin => ?_) ?_
    · rw [hbooks, hb']
      exact hcur
    · rw [hbooks] at hin
      rcases Books.mem_todo_step ht heff hin with hold | hin | ⟨code, hbegins, hin⟩
      · exact hclose bytes' hold
      · simp at hin
      · rcases hbegins with ⟨v, rfl⟩ | rfl <;> simp at hin
    · -- It was the only call of the work there was.
      have hcount := Books.countP_step (Books.calls_begins w e) ht heff
      have hle := Nat.le_trans (Books.calls_le_works w e s.books.todo) (h.orderly.works_le w e)
      have hone := Nat.le_trans (Books.closes_le_slices w e s.books.todo) (h.orderly.one_slice w)
      rw [← hbooks] at hcount
      simp only [List.countP_cons_of_pos, List.countP_nil, calls, decide_true, Bool.and_self, Nat.zero_add,
        List.countP_singleton, Bool.false_eq_true, if_false] at hcount
      simp only [true_iff]
      omega

theorem advances_close (h : s.Traced e) {start : Instant} {bytes bytes' : UInt64} {called : Bool} {e' : Fin n}
    {rest : List (Instr n)} (hcur : s.books.current[w]? = some (some e)) (hstart : s.startOf e = some start)
    (hclose : ∀ bytes', .closeSlice w e bytes' ∈ s.books.todo → bytes' = bytes)
    (hcalled : called = true ↔ s.books.todo.countP (calls w e) = 0) (hcode : s.code t = .closeSlice w e' bytes' :: rest) :
    s.Advances e (.step t) (.started start :: .noted w bytes :: if called then [.called w] else []) := by
  have ht := codes_of_code hcode
  have hmem := Books.mem_todo ht
  have hpub := h.orderly.staffed.published w e hcur
  obtain rfl : e = e' := Books.closes_unique (h.orderly.one_slice w) hpub (List.countP_pos_iff.2 ⟨_, hmem, by simp⟩)
  obtain rfl := hclose bytes' hmem
  obtain rfl : rest = [.nextSlice w] := (h.fitted _ (List.mem_of_getElem? ht)).1
  have hw := (current_eq s w e).1 hcur
  obtain ⟨next, b', heff, hl, -, hbooks, -⟩ := step_does hcode rfl (by simp)
  have hnone : s.books.todo.countP (calls w e) = 0 := by
    have hone := Nat.le_trans (Books.closes_le_slices w e s.books.todo) (h.orderly.one_slice w)
    have hle := Nat.le_trans (Books.calls_le_works w e _) ((h.orderly.moves (act_moves s (.step t))).works_le w e)
    have hcalls := Books.countP_step (Books.calls_begins w e) ht heff
    have hcloses := Books.countP_step (p := closes w e) (by rintro code (⟨v, rfl⟩ | rfl) <;> simp) ht heff
    rw [← hbooks] at hcalls hcloses
    have hnext : next.countP (closes w e) = 0 := by rcases hl with rfl | ⟨slice, rfl⟩ <;> simp
    simp only [List.countP_singleton, calls, closes, decide_true, Bool.and_self, if_true, Bool.false_eq_true,
      if_false] at hcalls hcloses
    omega
  obtain rfl : called = true := hcalled.2 hnone
  refine .on (o := some (.returned w (s.allocated w))) ?_ (.of_code (code_closeSlice hcode hw) ?_)
  · rw [moment?_step hcode]
    simp [momentOf, hw]
  · rw [h.startOf_inSlice hcur, hstart]
    exact .returned w start bytes' (s.allocated w)

theorem advances_abandon (h : s.Traced e) {start : Instant} {bytes : UInt64} {called : Bool} {rest : List (Instr n)}
    (hcur : s.books.current[w]? = some (some e)) (hstart : s.startOf e = some start)
    (hcode : s.code t = .takeAbandoned w :: rest) :
    s.Advances e (.step t) (.started start :: .noted w bytes :: if called then [.called w] else []) := by
  obtain ⟨next, b', ⟨-, hnext⟩, -, -, -, hnew⟩ := step_does hcode rfl (by simp)
  rcases hnext with ⟨e', hcur', rfl⟩ | ⟨hnone, -⟩
  · have hcur' : s.books.current[w]? = some (some e') := hcur'
    obtain rfl : e = e' := Option.some.inj (Option.some.inj (hcur.symm.trans hcur'))
    refine .on (o := some (.abandoned w)) ?_ (.of_code hnew ?_)
    · rw [moment?_step hcode]
      simp [momentOf, (current_eq s w e).1 hcur]
    · rw [h.startOf_inSlice hcur, hstart]
      exact .abandoned w start bytes called rest
  · exact absurd hcur (hnone e)

theorem advances_inSlice (h : s.Traced e) {start : Instant} {bytes : UInt64} {called : Bool}
    (hcur : s.books.current[w]? = some (some e)) (hstart : s.startOf e = some start)
    (hclose : ∀ bytes', .closeSlice w e bytes' ∈ s.books.todo → bytes' = bytes)
    (hcalled : called = true ↔ s.books.todo.countP (calls w e) = 0) (a : Action n) :
    s.Advances e a (.started start :: .noted w bytes :: if called then [.called w] else []) := by
  by_cases hhead : ∃ t i rest, a = .step t ∧ s.code t = i :: rest ∧ (i = .callWork w e ∨ withdraws w i = true)
  · obtain ⟨t, i, rest, rfl, hcode, rfl | hwithdraw⟩ := hhead
    · exact h.advances_call hcur hstart hclose hcalled hcode
    · cases i with
      | closeSlice w' e' bytes' =>
        obtain rfl : w' = w := by simpa using hwithdraw
        exact h.advances_close hcur hstart hclose hcalled hcode
      | takeAbandoned w' =>
        obtain rfl : w' = w := by simpa using hwithdraw
        exact h.advances_abandon hcur hstart hcode
      | _ => cases hwithdraw
  · have hother : ∀ t i rest, a = .step t → s.code t = i :: rest → i ≠ .callWork w e ∧ withdraws w i = false :=
      fun t i rest ha hcode => ⟨fun hi => hhead ⟨t, i, rest, ha, hcode, Or.inl hi⟩,
        Bool.eq_false_iff.2 fun hi => hhead ⟨t, i, rest, ha, hcode, Or.inr hi⟩⟩
    obtain ⟨hcur', hclose', hcalls⟩ := Books.slice_goes h.orderly h.fitted hcur
      (fun t i rest ha ht => hother t i rest ha (by rw [code_eq, ht, Option.getD_some])) (act_goes s a)
    refine .on (o := none) (Option.eq_none_iff_forall_not_mem.2 fun m hsome => ?_) ?_
    · obtain ⟨i, hi, hm⟩ := Option.bind_eq_some_iff.1 hsome
      cases a with
      | step t =>
        obtain ⟨rest, hcode⟩ := List.head?_eq_some_iff.1 hi
        obtain ⟨hcall, hwithdraw⟩ := hother t i rest rfl hcode
        rcases momentOf_elim hm with hbusy | ⟨w', hw', ⟨rfl, -⟩ | ⟨e', bytes', rfl, -⟩ | ⟨rfl, -⟩⟩
        · exact h.free hcur hcode hbusy
        · exact hcall (h.one_current hcur hw' ▸ rfl)
        · simp [h.one_current hcur hw'] at hwithdraw
        · simp [h.one_current hcur hw'] at hwithdraw
      | _ => cases hi
    · rw [Option.toList_none, List.append_nil]
      exact .inSlice w start bytes called hcur' ((h.startOf_inSlice hcur a).trans hstart)
        (fun bytes' hin => hclose bytes' (hclose' bytes' hin)) (hcalls ▸ hcalled)

/-! ## Every action -/

/-- Every action goes on with the stints of an executor. -/
theorem advances (h : s.Traced e) (hstanding : s.Standing e tail) (a : Action n) : s.Advances e a tail := by
  cases hstanding with
  | away haway => exact h.advances_away haway a
  | there t hp =>
    by_cases ha : a = .step t
    · exact ha ▸ h.advances_there hp
    · exact h.advances_apart hp ha
  | inSlice w start bytes called hw hstart hclose hcalled => exact h.advances_inSlice hw hstart hclose hcalled a
  | torn hrun hstay hcur hfail htail => exact h.advances_torn hrun hstay hcur hfail htail a

end Traced

end Pool

end FairShare.Scheduler
