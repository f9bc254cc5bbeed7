import FairShare.Proofs.Meter
import FairShare.Proofs.Stopping

/-!
# Who has an executor

An executor that runs is with the worker that took it last. Unless that worker was retired meanwhile, its thread has
still to end the stay, so it takes nobody else before that. A worker that is not retired has a slot of its own, so with
one slot there is only one executor at a time whose worker is not retired.
-/

namespace FairShare.Scheduler

variable {n : Nat}

/-- The worker that took an executor last. -/
def lastTaker (takings : List (Fin n × WorkerId)) (e : Fin n) : Option WorkerId :=
  (takings.reverse.find? (·.1 = e)).map (·.2)

theorem lastTaker_append (takings : List (Fin n × WorkerId)) (e e' : Fin n) (w : WorkerId) :
    lastTaker (takings ++ [(e, w)]) e' = if e = e' then some w else lastTaker takings e' := by
  by_cases h : e = e' <;> simp [lastTaker, h]

namespace Gear

/-- The executors that were taken from the run queue so far, each with the worker that took it. -/
def takings (g : Gear n) : List (Fin n × WorkerId) := g.deeds.filterMap Event.taken?

theorem takings_deed (g : Gear n) (v : Event n) : (g.deed v).takings = g.takings ++ v.taken?.toList := by
  cases hv : v.taken? <;> simp [takings, deed, hv]

end Gear

open Instr

namespace Instr

/-- Whether an instruction of a worker's thread goes on with the stay of an executor on that worker. -/
@[simp] def tends (w : WorkerId) (e : Fin n) (i : Instr n) : Bool := stays e i || closes w e i

variable {b b' : Books n} {g g' : Gear n} {i : Instr n} {next rest : List (Instr n)}

/-- Nobody begins to run but whom a worker takes. -/
theorem Outcome.custody (ho : Outcome b g i b' g' next) :
    (∀ e ∈ b'.running, e ∈ b.running ∧ i ≠ .settle e) ∧ g'.takings = g.takings ∨
      ∃ w e, (i = .seekWork w ∨ i = .awaitWork w) ∧ next = [.openSlice w e] ∧ b'.running = b.running ++ [e] ∧
        b'.live = b.live ∧ g'.takings = g.takings ++ [(e, w)] := by
  have hsettle : ∀ e, ∀ e' ∈ b.running.filter (· != e), e' ∈ b.running ∧ Instr.settle e ≠ .settle e' := by
    intro e e' he'
    obtain ⟨he, hne⟩ := List.mem_filter.1 he'
    refine ⟨he, fun heq => ?_⟩
    cases heq
    simp at hne
  cases ho
  case take w e idle hi htake =>
    cases htake
    exact Or.inr ⟨w, _, hi.imp And.left And.left, rfl, rfl, rfl, Gear.takings_deed _ _⟩
  case close w idle hp hi htake =>
    cases htake
    exact Or.inl ⟨fun e he => ⟨he, by rcases hi with ⟨rfl, -⟩ | ⟨rfl, -⟩ <;> simp⟩, rfl⟩
  case await w idle hp hi htake =>
    cases htake
    exact Or.inl ⟨fun e he => ⟨he, by rcases hi with ⟨rfl, -⟩ | ⟨rfl, -⟩ <;> simp⟩, rfl⟩
  case settle e runtime faults h hf hr hn => exact Or.inl ⟨hsettle e, rfl⟩
  case requeue e runtime faults arrival h hp hf hr => exact Or.inl ⟨hsettle e, rfl⟩
  case withdraw e =>
    refine Or.inl ⟨fun e' he' => ⟨?_, by simp⟩, rfl⟩
    revert he'
    show e' ∈ (if b.stage e = .queued then b.setStage e .idle else b).running → _
    split <;> exact id
  all_goals
    exact Or.inl ⟨fun e he => ⟨he, by simp⟩, by
      first | rfl | exact (Gear.takings_deed _ _).trans (List.append_nil _)⟩

/-- A thread has the next round of a worker to do only if it had that to do. -/
theorem Leads.nextSlice (hl : i.Leads next) {w : WorkerId} (h : .nextSlice w ∈ next ++ rest) :
    .nextSlice w ∈ i :: rest := by
  rcases List.mem_append.1 h with h | h
  · have hpos : 0 < [i].countP (nexts w) :=
      Nat.lt_of_lt_of_le (List.countP_pos_iff.2 ⟨_, h, by simp⟩) (hl.keeps.nexts w)
    obtain ⟨j, hj, hp⟩ := List.countP_pos_iff.1 hpos
    obtain rfl := List.mem_singleton.1 hj
    obtain rfl := eq_of_nexts hp
    exact List.mem_cons_self ..
  · exact List.mem_cons_of_mem _ h

/-- The thread of a worker goes on with a stay until that ends. -/
theorem Leads.tends (hl : i.Leads next) (hf : i.Fits rest) {w : WorkerId} {e : Fin n} (hw : .nextSlice w ∈ i :: rest)
    (hi : tends w e i = true) (hsettle : i ≠ .settle e) (hnote : ∀ w e, i = .noteAllocated w e → next ≠ [])
    (hclose : ∀ a, i = .closeSlice w e a → next ≠ []) : ∃ x ∈ next, tends w e x = true := by
  cases i <;> simp only [Instr.tends, stays, closes, Bool.or_false, Bool.false_or, Bool.or_self, decide_eq_true_eq,
    Bool.false_eq_true, Bool.and_eq_true] at hi
  case openSlice w' e' =>
    subst hi
    rcases hl with rfl | rfl <;> simp
  case noteAllocated w' e' =>
    subst hi
    rcases hl with rfl | ⟨a, rfl⟩
    · exact absurd rfl (hnote w' e' rfl)
    · simp
  case publish w' e' a =>
    subst hi
    cases hl
    cases hf
    obtain rfl : w = w' := by simpa using hw
    simp
  case closeSlice w' e' a =>
    obtain ⟨rfl, rfl⟩ := hi
    rcases hl with rfl | ⟨slice, rfl⟩
    · exact absurd rfl (hclose a rfl)
    · simp
  case resetTimer e' slice =>
    subst hi
    obtain ⟨accounts, -, rfl⟩ := hl
    exact ⟨.settle e', by simp, by simp⟩
  case settle e' => exact absurd (congrArg Instr.settle hi) hsettle

end Instr

namespace Books

variable {b b' : Books n} {g g' : Gear n}

/-- A worker whose thread is started along the way is a new one. -/
theorem Hires.newcomers (h : b.Hires b') :
    ∃ extra, b'.codes = b.codes ++ extra ∧ ∀ code ∈ extra, ∀ w, .nextSlice w ∈ code → b.current.length ≤ w := by
  induction h with
  | refl b => exact ⟨[], by simp⟩
  | @worker b b' h ih =>
    obtain ⟨extra, hcodes, hextra⟩ := ih
    refine ⟨_ :: extra, hcodes.trans (List.append_assoc ..), ?_⟩
    refine List.forall_mem_cons.2 ⟨fun w hw => ?_, fun code hc w hw => ?_⟩
    · simp at hw
      exact Nat.le_of_eq hw.symm
    · exact Nat.le_trans (by simp [hireWorker]) (hextra code hc w hw)
  | @watchdog b b' h ih =>
    obtain ⟨extra, hcodes, hextra⟩ := ih
    refine ⟨_ :: extra, hcodes.trans (List.append_assoc ..), List.forall_mem_cons.2 ⟨fun w hw => ?_, hextra⟩⟩
    simp at hw

variable {t : ThreadId} {i : Instr n} {rest next : List (Instr n)}

/-- What a thread of a worker that was there before a step has to do after it. -/
theorem codes_veteran (ht : b.codes[t]? = some (i :: rest))
    (he : i.Effect { b with codes := b.codes.set t rest } b' next) {w : Nat} (hw : w < b.current.length)
    {code : List (Instr n)} (hc : code ∈ b'.codes.set t (next ++ rest)) (hnext : .nextSlice w ∈ code) :
    code = next ++ rest ∨ ∃ t', t' ≠ t ∧ b.codes[t']? = some code := by
  obtain ⟨t', ht'⟩ := List.getElem?_of_mem hc
  obtain ⟨hired, hh, hcodes⟩ := hires_of_effect he
  obtain ⟨extra, hextra, hnew⟩ := hh.newcomers
  have hlt := (List.getElem?_eq_some_iff.1 ht).1
  rw [hcodes, hextra, List.set_append_left t (next ++ rest) (by simpa using hlt), List.set_set,
    List.getElem?_append] at ht'
  split at ht'
  · by_cases hne : t = t'
    · subst hne
      rw [List.getElem?_set_self hlt] at ht'
      exact Or.inl (Option.some.inj ht').symm
    · rw [List.getElem?_set_ne hne] at ht'
      exact Or.inr ⟨t', Ne.symm hne, ht'⟩
  · exact absurd (hnew code (List.mem_of_getElem? ht') w hnext) (Nat.not_le.2 hw)

/-- A worker that is not retired has its slice when its thread comes to close it. -/
theorem Orderly.closes_next (ho : b.Orderly) {w : WorkerId} {e : Fin n} {a : UInt64} {l : List (List (Instr n))}
    (hmem : .closeSlice w e a ∈ b.todo) (hup : b.live[w]? = some true)
    (he : (closeSlice w e a).Effect { b with codes := l } b' next) : next ≠ [] := by
  have hpos : 0 < b.todo.countP (closes w e) := List.countP_pos_iff.2 ⟨_, hmem, by simp⟩
  have hcur : b.current[w]? = some (some e) := (ho.staffed.exposed w e hpos).resolve_right (by simp [hup])
  obtain ⟨-, ⟨e', slice, -, rfl⟩ | ⟨hnone, -⟩⟩ := he
  · simp
  · exact absurd hcur (hnone e)

/-- Executors that run are with the workers that took them. -/
structure Custody (b : Books n) (takings : List (Fin n × WorkerId)) : Prop where
  /-- Whoever runs was taken by some worker. -/
  taken : ∀ e ∈ b.running, ∃ w, lastTaker takings e = some w ∧ w < b.live.length
  /-- Unless that worker is retired, its thread has still to end the stay. -/
  tended : ∀ e ∈ b.running, ∀ w : WorkerId, lastTaker takings e = some w → b.live[w]? = some true →
    ∀ code ∈ b.codes, .nextSlice w ∈ code → ∃ i ∈ code, tends w e i = true

/-- Whoever runs with a worker ran with it before, and the worker was not retired then if it is not now; or the worker
has just taken it. -/
theorem Custody.before (h : b.Custody g.takings) {l : List (List (Instr n))}
    (ho : Outcome { b with codes := l } g i b' g' next) {e : Fin n} (he : e ∈ b'.running) {w : WorkerId}
    (hw : lastTaker g'.takings e = some w) :
    (e ∈ b.running ∧ i ≠ .settle e ∧ lastTaker g.takings e = some w ∧ w < b'.live.length ∧
        (b'.live[w]? = some true → b.live[w]? = some true)) ∨
      (i = .seekWork w ∨ i = .awaitWork w) ∧ next = [.openSlice w e] ∧ b'.live = b.live := by
  have hold : e ∈ b.running → i ≠ .settle e → lastTaker g.takings e = some w →
      e ∈ b.running ∧ i ≠ .settle e ∧ lastTaker g.takings e = some w ∧ w < b'.live.length ∧
        (b'.live[w]? = some true → b.live[w]? = some true) := by
    intro he hi hw
    obtain ⟨w', hw', hlt⟩ := h.taken e he
    obtain rfl : w' = w := Option.some.inj (hw'.symm.trans hw)
    have hup : b.live[w']? = some b.live[w'] := List.getElem?_eq_getElem hlt
    rcases ho.live hup with hlive | ⟨htrue, -, -, hlive⟩
    · exact ⟨he, hi, hw, (List.getElem?_eq_some_iff.1 hlive).1, fun h => by rw [← h, hlive]; exact hup⟩
    · exact ⟨he, hi, hw, (List.getElem?_eq_some_iff.1 hlive).1, fun _ => by rw [hup, htrue]⟩
  rcases ho.custody with ⟨hrun, htakings⟩ | ⟨w', e', hi, hnext, hrun, hlive, htakings⟩
  · rw [htakings] at hw
    exact Or.inl (hold (hrun e he).1 (hrun e he).2 hw)
  · rw [htakings, lastTaker_append] at hw
    by_cases heq : e' = e
    · subst heq
      obtain rfl : w' = w := by simpa using hw
      exact Or.inr ⟨hi, hnext, hlive⟩
    · rw [if_neg heq] at hw
      rw [hrun, List.mem_append, List.mem_singleton] at he
      exact Or.inl (hold (he.resolve_right (Ne.symm heq)) (by rcases hi with rfl | rfl <;> simp) hw)

theorem Custody.step (h : b.Custody g.takings) (hord : b.Orderly) (hfit : b.Fitted)
    (ht : b.codes[t]? = some (i :: rest))
    (he : i.Effect { b with codes := b.codes.set t rest } b' next) (hl : i.Leads next)
    (hout : Outcome { b with codes := b.codes.set t rest } g i b' g' next)
    (hnote : ∀ w e, i = .noteAllocated w e → next ≠ []) :
    ({ b' with codes := b'.codes.set t (next ++ rest) } : Books n).Custody g'.takings := by
  have hmem := List.mem_of_getElem? ht
  have hfits : i.Fits rest := (hfit _ hmem).1
  have hseek : ∀ {w : WorkerId}, i = .seekWork w ∨ i = .awaitWork w → w < b.live.length ∧ rest = [.nextSlice w] := by
    rintro w (rfl | rfl)
    · exact ⟨hord.lengths ▸ hord.started (mem_todo ht) (by simp), hfits⟩
    · exact ⟨hord.lengths ▸ hord.started (mem_todo ht) (by simp), hfits⟩
  constructor
  case taken =>
    intro e hrun
    have hw : ∃ w, lastTaker g'.takings e = some w := by
      rcases hout.custody with ⟨hk, htakings⟩ | ⟨w, e', -, -, hk, -, htakings⟩
      · rw [htakings]
        exact (h.taken e (hk e hrun).1).imp fun _ => And.left
      · rw [htakings, lastTaker_append]
        by_cases heq : e' = e
        · exact ⟨w, if_pos heq⟩
        · rw [if_neg heq]
          have hrun : e ∈ b'.running := hrun
          rw [hk, List.mem_append, List.mem_singleton] at hrun
          exact (h.taken e (hrun.resolve_right (Ne.symm heq))).imp fun _ => And.left
    obtain ⟨w, hw⟩ := hw
    refine ⟨w, hw, ?_⟩
    rcases h.before hout hrun hw with ⟨-, -, -, hlt, -⟩ | ⟨hi, -, hlive⟩
    · exact hlt
    · show w < b'.live.length
      rw [hlive]
      exact (hseek hi).1
  case tended =>
    intro e hrun w hw hup code hcode hnext
    rcases h.before hout hrun hw with ⟨hold, hsettle, hwold, -, hlive⟩ | ⟨hi, rfl, hlive⟩
    · have hup := hlive hup
      have hlt : w < b.current.length := hord.lengths ▸ (List.getElem?_eq_some_iff.1 hup).1
      rcases codes_veteran ht he hlt hcode hnext with rfl | ⟨t', -, hcode⟩
      · have hnext := hl.nextSlice hnext
        obtain ⟨x, hx, htends⟩ := h.tended e hold w hwold hup _ hmem hnext
        rcases List.mem_cons.1 hx with rfl | hx
        · have hclose : ∀ a, x = .closeSlice w e a → next ≠ [] := by
            rintro a rfl
            exact hord.closes_next (mem_todo ht) hup he
          obtain ⟨y, hy, hty⟩ := hl.tends hfits hnext htends hsettle hnote hclose
          exact ⟨y, List.mem_append_left _ hy, hty⟩
        · exact ⟨x, List.mem_append_right _ hx, htends⟩
      · exact h.tended e hold w hwold hup code (List.mem_of_getElem? hcode) hnext
    · obtain ⟨hlt, rfl⟩ := hseek hi
      rcases codes_veteran ht he (hord.lengths ▸ hlt) hcode hnext with rfl | ⟨t', hne, hcode⟩
      · simp
      · exact absurd (hord.thread_unique hcode ht hnext (by simp)) hne

/-- Executors that run stay with the workers that took them, as long as there is a worker to note what its thread was
given. -/
theorem Custody.goes (h : b.Custody g.takings) (ho : b.Orderly) (hf : b.Fitted) {a : Action n} (hg : Goes b g a b' g')
    (hnote : ∀ (t : ThreadId) (w : WorkerId) (e : Fin n) (rest : List (Instr n)), a = .step t →
      b.codes[t]? = some (.noteAllocated w e :: rest) → b'.codes[t]? ≠ some rest) : b'.Custody g'.takings := by
  cases hg with
  | rest => exact h
  | advance nanos => exact h
  | arrive c =>
    refine ⟨h.taken, fun e he w hw hup code hc hnext => ?_⟩
    rcases List.mem_append.1 hc with hc | hc
    · exact h.tended e he w hw hup code hc hnext
    · rw [List.mem_singleton.1 hc] at hnext
      simp at hnext
  | perform t w' e' rest next a ht ha =>
    refine ⟨h.taken, fun e he w hw hup code hc hnext => ?_⟩
    rcases List.mem_or_eq_of_mem_set hc with hc | rfl
    · exact h.tended e he w hw hup code hc hnext
    · obtain ⟨x, hx, htends⟩ := h.tended e he w hw hup _ (List.mem_of_getElem? ht) (ha.leads.nextSlice hnext)
      rcases List.mem_cons.1 hx with rfl | hx
      · simp at htends
      · exact ⟨x, List.mem_append_right _ hx, htends⟩
  | step t i rest next b' g' ht hw he hl hd =>
    refine h.step ho hf ht he hl (outcome hw he hl hd) ?_
    rintro w e rfl rfl
    exact hnote t w e rest rfl ht (codes_self ht he)
  | tear t e' o rest ht hfail =>
    refine ⟨h.taken, fun e he w hw hup code hc hnext => ?_⟩
    rcases List.mem_or_eq_of_mem_set hc with hc | rfl
    · exact h.tended e he w hw hup code hc hnext
    · simp at hnext

/-- With one slot, a worker that is not retired takes an executor only when everybody who runs is with a retired one. -/
theorem Custody.alone (h : b.Custody g.takings) (ho : b.Orderly) (hf : b.Fitted) (hs : Seated b.live b.leaving g)
    (hone : g.slots.length = 1) {a : Action n} (hg : Goes b g a b' g') {e : Fin n} {w : WorkerId}
    (htake : g'.takings = g.takings ++ [(e, w)]) (hup : b'.live[w]? ≠ some false) {e' : Fin n} (he' : e' ∈ b.running) :
    ∃ w' : WorkerId, lastTaker g.takings e' = some w' ∧ b.live[w']? = some false := by
  have hkeep : g'.takings ≠ g.takings := by simp [htake]
  cases hg with
  | step t i rest next b' g' ht hw he hl hd =>
    rcases (outcome hw he hl hd).custody with ⟨-, hsame⟩ | ⟨w₁, e₁, hi, -, -, hlive, htakings⟩
    · exact absurd hsame hkeep
    · obtain ⟨-, rfl⟩ : e₁ = e ∧ w₁ = w := by simpa using htakings.symm.trans htake
      have hmem := List.mem_of_getElem? ht
      have hcode : i :: rest = [i, .nextSlice w₁] := by rcases hi with rfl | rfl <;> exact congrArg _ (hf _ hmem).1
      have hlt : w₁ < b.live.length := by
        rw [ho.lengths]
        rcases hi with rfl | rfl <;> exact ho.started (mem_todo ht) (by simp)
      have hup : b.live[w₁]? = some true := by
        rw [show b'.live = b.live from hlive, List.getElem?_eq_getElem hlt] at hup
        rw [List.getElem?_eq_getElem hlt]
        simpa using hup
      obtain ⟨w', hw', hlt'⟩ := h.taken e' he'
      refine ⟨w', hw', ?_⟩
      by_contra hdead
      have hup' : b.live[w']? = some true := by
        rw [List.getElem?_eq_getElem hlt'] at hdead ⊢
        simpa using hdead
      -- Both workers have the only slot, so they are one; but its thread is between two slices.
      obtain ⟨k, hk⟩ := hs.holds w₁ (Or.inl hup)
      obtain ⟨k', hk'⟩ := hs.holds w' (Or.inl hup')
      have hk0 := (List.getElem?_eq_some_iff.1 hk).1
      have hk0' := (List.getElem?_eq_some_iff.1 hk').1
      obtain rfl : k = k' := by omega
      obtain rfl : w₁ = w' := by simpa using hk.symm.trans hk'
      obtain ⟨x, hx, htends⟩ := h.tended e' he' w₁ hw' hup' _ hmem (by rw [hcode]; simp)
      rw [hcode] at hx
      rcases hi with rfl | rfl <;> rcases List.mem_cons.1 hx with rfl | hx <;> simp_all
  | _ => exact absurd rfl hkeep

end Books

namespace Pool

theorem takings_gear (s : Pool n) : s.gear.takings = s.takings := by
  show (s.history.toList.filter Event.isDeed).filterMap Event.taken? = _
  rw [List.filterMap_filter]
  refine List.filterMap_congr fun v _ => ?_
  cases v <;> rfl

/-- A worker's thread notes what it was given, and goes on to publish the slice. -/
theorem step_noteAllocated {s : Pool n} {t : ThreadId} {w : WorkerId} {e : Fin n} {rest : List (Instr n)}
    (h : s.code t = .noteAllocated w e :: rest) (hw : w < s.workers.length) :
    ∃ a, (s.step t).code t = .publish w e a :: rest := by
  obtain ⟨thread, ht⟩ := thread_of_code h
  have hworker : (s.setCode t rest).workers[w]? = some s.workers[w] := List.getElem?_eq_getElem hw
  have he : (s.setCode t rest).exec t (.noteAllocated w e) =
      (s.setCode t rest, some [.publish w e s.workers[w].allocated]) := by simp [exec, hworker]
  exact ⟨_, (step_thread h rfl he ht).1⟩

/-- Executors that run are with the workers that took them, and these are in their slots. -/
structure Kept (s : Pool n) : Prop extends s.Manning where
  custody : s.books.Custody s.takings

theorem create_kept (config : SchedulerConfig) (context : Metrics.Context) (log : LogFilter) (hosts : Vector Host n) :
    (create config context log hosts).Kept := by
  refine ⟨create_manning config context log hosts, ?_⟩
  rw [books_create]
  constructor <;> simp [Books.start]

theorem act_noteAllocated {s : Pool n} (ho : s.books.Orderly) {a : Action n} (t : ThreadId) (w : WorkerId) (e : Fin n)
    (rest : List (Instr n)) (ha : a = .step t) (ht : s.books.codes[t]? = some (.noteAllocated w e :: rest)) :
    (s.act a).books.codes[t]? ≠ some rest := by
  subst ha
  intro hrest
  have hcode : s.code t = .noteAllocated w e :: rest := by rw [code_eq, ht]; rfl
  have hw : w < s.workers.length := by
    have hlt : w < s.books.current.length := ho.started (Books.mem_todo ht) (by simp)
    simpa [books] using hlt
  obtain ⟨a, hstep⟩ := step_noteAllocated hcode hw
  have hlen := congrArg List.length (hstep.symm.trans ((code_eq _ t).trans (congrArg (·.getD []) hrest)))
  simp at hlen

theorem Kept.act {s : Pool n} (h : s.Kept) (ho : s.books.Orderly) (a : Action n) : (s.act a).Kept := by
  refine ⟨h.toManning.act ho a, ?_⟩
  have hc := h.custody
  rw [← takings_gear] at hc ⊢
  exact hc.goes ho h.fitted (act_goes s a) (act_noteAllocated ho)

/-- Whether an executor runs while the worker that took it is retired. Another worker may have that one's slot then, and
run somebody else at the same time. -/
def abandoned (s : Pool n) (e : Fin n) : Bool := s.running.contains e && (lastTaker s.takings e).any s.retired

/-- With one slot, an executor begins to run and is not abandoned only when everybody who runs is. -/
theorem Kept.alone {s : Pool n} (h : s.Kept) (ho : s.books.Orderly) (hone : s.slots.length = 1) {a : Action n} {e : Fin n}
    {w : WorkerId} (htake : (s.act a).takings = s.takings ++ [(e, w)]) (hrun : e ∈ (s.act a).running)
    (hup : (s.act a).abandoned e = false) {e' : Fin n} (he' : e' ∈ s.running) : s.abandoned e' = true := by
  have hc := h.custody
  rw [← takings_gear] at hc
  have hlast : lastTaker (s.act a).takings e = some w := by rw [htake, lastTaker_append, if_pos rfl]
  have hlive : (s.act a).books.live[w]? ≠ some false := by
    intro hdead
    simp [abandoned, hrun, hlast, retired_eq, hdead] at hup
  obtain ⟨w', hw', hdead⟩ := hc.alone ho h.fitted h.seated hone (act_goes s a)
    (by rw [takings_gear, takings_gear]; exact htake) hlive he'
  rw [takings_gear] at hw'
  simp [abandoned, he', hw', retired_eq, hdead]

end Pool

end FairShare.Scheduler
