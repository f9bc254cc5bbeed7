import FairShare.Proofs.Guarding
import FairShare.Proofs.RunQueue
import FairShare.Proofs.Staffing

/-!
# Draining the run queue

As long as anybody waits there is a worker in a slot that it does not leave to nobody. Once the scheduler stops, whoever
waits is unloaded by the worker that takes it, and its work is not begun by that worker any more.
-/

namespace FairShare.Scheduler

variable {n : Nat}

open Instr

/-! ## Somebody is there -/

namespace Seated

variable {live : List Bool} {leaving : WorkerId → Nat} {g : Gear n}

/-- A slot is taken if some worker is counted. -/
theorem occupied (h : Seated live leaving g) (hpos : 0 < g.workerCount) :
    ∃ (k : Nat) (w : WorkerId), g.slots[k]? = some (some w) := by
  rw [h.count] at hpos
  obtain ⟨x, hx, hsome⟩ := List.countP_pos_iff.1 hpos
  obtain ⟨k, hk⟩ := List.getElem?_of_mem hx
  obtain ⟨w, rfl⟩ := Option.isSome_iff_exists.1 hsome
  exact ⟨k, w, hk⟩

end Seated

namespace Books

variable {b b' : Books n} {g g' : Gear n}

theorem drops_add_decides (w : WorkerId) (l : List (Instr n)) :
    l.countP (drops w) + l.countP (decides w) ≤ l.countP (quits w) := by
  induction l with
  | nil => exact Nat.le_refl 0
  | cons i l ih =>
    have hi : (if drops w i then 1 else 0) + (if decides w i then 1 else 0) ≤ if quits w i then 1 else 0 := by
      cases i <;> simp
      case vacate w' respawn => by_cases h : w' = w <;> cases respawn <;> simp [h]
    rw [List.countP_cons, List.countP_cons, List.countP_cons]
    omega

/-- A worker that decides on its replacement is in its slot, and has not dropped it. -/
theorem seat_of_decides (h : Seated b.live b.leaving g) {w : WorkerId} (hd : 0 < b.todo.countP (decides w)) :
    (∃ k : Nat, g.slots[k]? = some (some w)) ∧ b.todo.countP (drops w) = 0 := by
  have hle : _ ≤ b.leaving w := drops_add_decides w b.todo
  have hone := h.once w
  refine ⟨h.holds w (Or.inr (by omega)), ?_⟩
  split at hone <;> omega

/-- A worker that is guarded is in its slot, and has not dropped it. -/
theorem seat_of_guards (h : Seated b.live b.leaving g) (hf : b.Fitted) {w : WorkerId} (hw : b.Guards w) :
    (∃ k : Nat, g.slots[k]? = some (some w)) ∧ b.todo.countP (drops w) = 0 := by
  rcases hw with hlive | hpos
  · have hle : _ ≤ b.leaving w := drops_add_decides w b.todo
    have hone := h.once w
    rw [hlive, if_neg (by simp)] at hone
    exact ⟨h.holds w (Or.inl hlive), by omega⟩
  · have hle : b.todo.countP (abandons w) ≤ b.todo.countP (decides w) :=
      countP_flatten_le fun code hc => (hf code hc).abandons_le w
    exact seat_of_decides h (Nat.lt_of_lt_of_le hpos hle)

/-- While anybody waits, some worker is in a slot that it has not dropped. -/
def Served (b : Books n) (g : Gear n) : Prop :=
  b.queue ≠ [] → ∃ (k : Nat) (w : WorkerId), g.slots[k]? = some (some w) ∧ b.todo.countP (drops w) = 0

variable {t : ThreadId} {i : Instr n} {rest next : List (Instr n)}

/-- What comes after the end of a stay belongs to a worker in its slot. -/
theorem seat_of_left (hs : Seated b.live b.leaving g) (hf : b.Fitted) (hgu : b.Guarded) {e : Fin n}
    (ht : b.codes[t]? = some (.settle e :: rest)) :
    ∃ w, (∃ k : Nat, g.slots[k]? = some (some w)) ∧ b.todo.countP (drops w) = 0 := by
  have hleft : Left rest := (hf _ (List.mem_of_getElem? ht)).1
  obtain ⟨w, rfl | ⟨base, -, rfl⟩⟩ := hleft
  · exact ⟨w, seat_of_guards hs hf (hgu.engaged t _ w ht ⟨by simp, by simp, by simp⟩)⟩
  · refine ⟨w, seat_of_decides hs (List.countP_pos_iff.2 ⟨.decideRespawn w, ?_, by simp⟩)⟩
    exact List.mem_flatten.2 ⟨_, List.mem_of_getElem? ht, by simp⟩

/-- While the scheduler runs, any worker in a slot will do. -/
theorem Manned.served (hm : Manned b g) (hs : Seated b.live b.leaving g) (hp : b.phase = .running)
    (hpos : 0 < g.workerCount) : Served b g := by
  intro _
  obtain ⟨k, w, hk⟩ := hs.occupied hpos
  exact ⟨k, w, hk, hm.replaced hp w⟩

/-- A worker stays in its slot through a step that drops no slot. -/
theorem Served.keep_step (h : Served b g) (ht : b.codes[t]? = some (i :: rest))
    (he : i.Effect { b with codes := b.codes.set t rest } b' next)
    (hq : b'.queue ≠ [] → b.queue ≠ []) (hslots : g'.slots = g.slots) (hd : ∀ w, next.countP (drops w) = 0) :
    Served { b' with codes := b'.codes.set t (next ++ rest) } g' := by
  intro hne
  obtain ⟨k, w, hk, hz⟩ := h (hq hne)
  exact ⟨k, w, hslots ▸ hk, none_step (drops_begins w) ht he (by rw [hd w]; simp) hz⟩

theorem Served.step (h : Served b g) (hf : b.Fitted) (hgu : b.Guarded) (hs : Seated b.live b.leaving g)
    (hm : Manned b g) (hlen : 0 < g.slots.length) (ht : b.codes[t]? = some (i :: rest))
    (he : i.Effect { b with codes := b.codes.set t rest } b' next)
    (hout : Outcome { b with codes := b.codes.set t rest } g i b' g' next)
    (hs' : Seated b'.live ({ b' with codes := b'.codes.set t (next ++ rest) } : Books n).leaving g')
    (hm' : Manned { b' with codes := b'.codes.set t (next ++ rest) } g') :
    Served { b' with codes := b'.codes.set t (next ++ rest) } g' := by
  cases hout
  case push e current codes runtime arrival hp hst hh hr hmany =>
    refine hm'.served hs' hp ?_
    rcases hmany with hidle | hfull | hnone
    · exact hm.manned hp (hm.idle hidle)
    · exact hfull ▸ hlen
    · rw [hs.count]
      refine List.countP_pos_iff.2 ⟨g.slots[0], List.getElem_mem hlen, ?_⟩
      cases h0 : g.slots[0] with
      | none => exact absurd (h0 ▸ List.getElem_mem hlen) hnone
      | some w => rfl
  case hire e slot current codes runtime arrival hp hst hh hr hslot =>
    exact hm'.served hs' hp (Nat.succ_pos _)
  case requeue e runtime faults arrival hst hp hfaults hr =>
    obtain ⟨w, ⟨k, hk⟩, hz⟩ := seat_of_left hs hf hgu ht
    exact fun _ => ⟨k, w, hk, none_step (drops_begins w) ht he (by simp) hz⟩
  case decide w respawn hrespawn =>
    intro hq
    obtain ⟨k, w', hk, hz⟩ := h hq
    refine ⟨k, w', hk, none_step (drops_begins w') ht he (fun hpos => ?_) hz⟩
    -- Somebody waits, so the worker is replaced unless the scheduler is closed, but then no worker is counted.
    have hr : respawn = false := by cases respawn <;> simp_all
    subst hr
    have hc : b.phase = .closed := by
      have hno := mt hrespawn.2 (by simp)
      have hq' : b.queue ≠ [] := hq
      cases hph : b.phase with
      | running => exact absurd (Or.inl hph) hno
      | stopping => exact absurd (Or.inr ⟨hph, hq'⟩) hno
      | closed => rfl
    have := hs.count_pos hk
    have := hm.closed hc
    omega
  case leave w slot current codes hh hseat hslot =>
    intro hq
    obtain ⟨k, w', hk, hz⟩ := h hq
    have hne : w' ≠ w := by
      rintro rfl
      have hd := countP_head_le (drops w') ht
      rw [hz] at hd
      simp at hd
    have hks : slot ≠ k := by
      rintro rfl
      rw [hslot] at hk
      exact hne (by simpa [eq_comm] using hk)
    exact ⟨k, w', by rw [← hk]; exact List.getElem?_set_ne hks, none_step (drops_begins w') ht he (by simp) hz⟩
  case replace w slot current codes hh hseat hslot =>
    intro hq
    obtain ⟨k, w', hk, hz⟩ := h hq
    by_cases hks : slot = k
    · -- The worker that waits for the one that waits is the replacement.
      have hlt : slot < (g.slots.set slot none).length := by
        rw [List.length_set]
        exact (List.getElem?_eq_some_iff.1 hslot).1
      have hnew : ((g.leave slot).hire slot).slots[slot]? = some (some g.seats.length) :=
        List.getElem?_set_self hlt
      refine ⟨slot, g.seats.length, hnew, ?_⟩
      have hone := hs'.once g.seats.length
      have hlive : (b.live ++ [true])[g.seats.length]? = some true := by rw [hs.seats]; simp
      rw [hlive, if_neg (by simp)] at hone
      have hle : _ ≤ ({ b with current, live := b.live ++ [true], codes := codes.set t rest } : Books n).leaving
        g.seats.length := drops_add_decides g.seats.length _
      have hone : ({ b with current, live := b.live ++ [true], codes := codes.set t rest } : Books n).leaving
        g.seats.length ≤ 0 := hone
      show ({ b with current, live := b.live ++ [true], codes := codes.set t rest } : Books n).todo.countP _ = 0
      omega
    · refine ⟨k, w', ?_, none_step (drops_begins w') ht he (by simp) hz⟩
      rw [← hk]
      exact (List.getElem?_set_ne hks).trans (List.getElem?_set_ne hks)
  case unseated w respawn current codes hh hseat =>
    obtain ⟨-, k, hk⟩ := leaves_seat (w := w) hs (mem_todo ht) (by simp)
    rw [hs.seated k w hk] at hseat
    cases hseat
  case displaced w respawn slot current codes hh hseat hslot =>
    obtain ⟨-, k, hk⟩ := leaves_seat (w := w) hs (mem_todo ht) (by simp)
    rw [hs.seated k w hk] at hseat
    cases hseat
    exact absurd hk hslot
  case reset e slice elapsed accounts ha hnever =>
    exact h.keep_step ht he id rfl fun w => countP_accounts ha (fun _ => rfl) (fun _ _ => rfl) rfl
  case take w e idle hi htake =>
    refine h.keep_step ht he (fun hq hz => hq ?_) rfl (by simp)
    cases htake with
    | found skipped head rest' faults hqueue => rw [hz] at hqueue; simp at hqueue
  case close w idle hp hi htake =>
    refine h.keep_step ht he (fun hq hz => hq ?_) rfl (by simp)
    cases htake
    rfl
  case await w idle hp hi htake =>
    refine h.keep_step ht he (fun hq hz => hq ?_) rfl (by simp)
    cases htake
    rfl
  case withdraw e =>
    refine h.keep_step ht he (fun hq => ?_) rfl (by simp)
    split at hq <;> exact hq
  case dequeue e =>
    refine h.keep_step ht he (fun hq hz => hq ?_) rfl (by simp)
    rw [hz]
    rfl
  case settle e runtime faults hst hfaults hr hn =>
    refine h.keep_step ht he id rfl fun w => ?_
    rw [hn]
    split <;> simp
  case inspect ws hws =>
    refine h.keep_step ht he id rfl fun w => ?_
    rw [List.countP_map, List.countP_eq_zero]
    simp
  case collect timeout es =>
    refine h.keep_step ht he id rfl fun w => ?_
    rw [List.countP_append, List.countP_map]
    simp [List.countP_eq_zero]
  all_goals exact h.keep_step ht he id rfl (by simp)

/-- While anybody waits, some worker is there for it after every action. -/
theorem Served.goes (h : Served b g) (hf : b.Fitted) (hgu : b.Guarded) (hs : Seated b.live b.leaving g)
    (hm : Manned b g) (hlen : 0 < g.slots.length) (hs' : Seated b'.live b'.leaving g') (hm' : Manned b' g')
    {a : Action n} (hg : Goes b g a b' g') : Served b' g' := by
  have hkeep : ∀ c : Books n, c.queue = b.queue → (∀ w, c.todo.countP (drops w) ≤ b.todo.countP (drops w)) →
      Served c g := by
    intro c hq hle hne
    obtain ⟨k, w, hk, hz⟩ := h (hq ▸ hne)
    have := hle w
    exact ⟨k, w, hk, by omega⟩
  cases hg with
  | rest => exact h
  | advance => exact h
  | arrive c =>
    refine hkeep _ rfl fun w => ?_
    rw [countP_arrive]
    simp
  | perform t w e rest next a ht ha =>
    refine hkeep _ rfl fun w' => ?_
    have hc := countP_replace (drops w') ht next
    have hz : next.countP (drops w') = 0 := by
      rw [List.countP_eq_zero]
      intro x hx
      cases ha.leads.yields hx <;> simp
    omega
  | tear t e o rest ht hfail => exact hkeep _ rfl fun w => countP_tear _ ht
  | step t i rest next b' g' ht hw he hl hd =>
    exact h.step hf hgu hs hm hlen ht he (outcome hw he hl hd) hs' hm'

end Books

/-! ## Who waits is unloaded -/

/-- What a worker does with an executor that it takes while the scheduler stops, as far as its stage lets it be that. -/
inductive Instr.Ending (e : Fin n) (stage : Stage) (w : WorkerId) : List (Instr n) → Prop where
  | opening : Ending e stage w [.openSlice w e, .nextSlice w]
  | unloading : Ending e stage w [.call (.unload e), .resetTimer e .never, .nextSlice w]
  | resetting (h : stage = .done) : Ending e stage w [.resetTimer e .never, .nextSlice w]
  | settling (h : stage = .done) : Ending e stage w [.settle e, .nextSlice w]

theorem Instr.Ending.engaged {e : Fin n} {stage : Stage} {w : WorkerId} {code : List (Instr n)}
    (h : Ending e stage w code) : Engaged w code := by
  cases h <;> exact ⟨by simp, by simp, by simp⟩

namespace Account

/-- An executor that is unloaded stays so, and is not taken any more. -/
theorem Move.done {a a' : Account} (h : a.Move a') (hd : a.stage = .done) :
    a'.stage = .done ∧ a'.running ≤ a.running := by
  cases h <;> simp_all [Stage.submitted, Stage.sliceEnded]

end Account

namespace Books

variable {b b' : Books n} {g g' : Gear n} {e : Fin n}

/-- An executor waits to be unloaded, is being unloaded by a worker that took it, or is unloaded. -/
inductive Doomed (b : Books n) (e : Fin n) : Prop where
  | waiting (q : Entry n) (h : q ∈ b.queue) (he : q.executor = e)
  | ending (t : ThreadId) (w : WorkerId) (code : List (Instr n)) (h : b.codes[t]? = some code)
      (hc : Ending e (b.stage e) w code)
  | done (h : b.stage e = .done) (hr : b.running.count e = 0)

variable {t : ThreadId} {i : Instr n} {rest next : List (Instr n)}

/-- A thread that does not take a step keeps what it has to do. -/
theorem codes_other (ht : b.codes[t]? = some (i :: rest))
    (he : i.Effect { b with codes := b.codes.set t rest } b' next) {t' : ThreadId} {code : List (Instr n)} (hne : t' ≠ t)
    (h : b.codes[t']? = some code) : (b'.codes.set t (next ++ rest))[t']? = some code := by
  obtain ⟨extra, hcodes, -⟩ := codes_step ht he
  have h' : (b.codes.set t (next ++ rest))[t']? = some code := by rw [List.getElem?_set_ne (Ne.symm hne)]; exact h
  rw [hcodes, List.getElem?_append_left (List.getElem?_eq_some_iff.1 h').1]
  exact h'

theorem codes_self (ht : b.codes[t]? = some (i :: rest))
    (he : i.Effect { b with codes := b.codes.set t rest } b' next) :
    (b'.codes.set t (next ++ rest))[t]? = some (next ++ rest) := by
  obtain ⟨extra, hcodes, -⟩ := codes_step ht he
  have h' : (b.codes.set t (next ++ rest))[t]? = some (next ++ rest) :=
    List.getElem?_set_self (List.getElem?_eq_some_iff.1 ht).1
  rw [hcodes, List.getElem?_append_left (List.getElem?_eq_some_iff.1 h').1]
  exact h'

/-- A thread that is not within the work of an executor keeps what it has to do while others act. -/
theorem codes_keep {a : Action n} (hg : Goes b g a b' g') {code : List (Instr n)} (ht : b.codes[t]? = some code)
    (hstep : a ≠ .step t) (hwork : ∀ w e rest, code ≠ .work w e :: rest) : b'.codes[t]? = some code := by
  cases hg with
  | rest => exact ht
  | advance => exact ht
  | arrive c =>
    show (b.codes ++ _)[t]? = _
    rw [List.getElem?_append_left (List.getElem?_eq_some_iff.1 ht).1, ht]
  | perform t' w e rest next a ht' ha =>
    have hne : t' ≠ t := by
      rintro rfl
      rw [ht] at ht'
      exact hwork w e rest (Option.some.inj ht')
    show (b.codes.set t' _)[t]? = _
    rw [List.getElem?_set_ne hne, ht]
  | step t' i rest next b' g' ht' hw he hl hd => exact codes_other ht' he (fun h => hstep (h ▸ rfl)) ht
  | tear t' e o rest ht' hf =>
    have hne : t' ≠ t := fun h => hstep (h ▸ rfl)
    show (b.codes.set t' [])[t]? = _
    rw [List.getElem?_set_ne hne, ht]

theorem mem_insert_of_mem {x q : Entry n} {l : List (Entry n)} (h : q ∈ l) : q ∈ Entry.insert x l := by
  have hpos : 0 < l.countP (· = q) := List.countP_pos_iff.2 ⟨q, h, by simp⟩
  have hle : 0 < (Entry.insert x l).countP (· = q) := by rw [countP_insert]; omega
  obtain ⟨y, hy, hyq⟩ := List.countP_pos_iff.1 hle
  rwa [of_decide_eq_true hyq] at hy

/-- What becomes of an executor in the run queue, by a step in a scheduler that stops. -/
theorem doomed_of_waiting (hf : b.Fitted) (hp : ∀ e, (b.account e).Placed) (hphase : b.phase ≠ .running)
    (ht : b.codes[t]? = some (i :: rest)) (he : i.Effect { b with codes := b.codes.set t rest } b' next)
    (hout : Outcome { b with codes := b.codes.set t rest } g i b' g' next) {q : Entry n} (hq : q ∈ b.queue) :
    Doomed { b' with codes := b'.codes.set t (next ++ rest) } q.executor := by
  have hmem := List.mem_of_getElem? ht
  have hkeep : q ∈ b'.queue → Doomed { b' with codes := b'.codes.set t (next ++ rest) } q.executor :=
    fun h => .waiting q h rfl
  have hdone : b.stage q.executor = .done → b'.stage q.executor = .done → b'.running = b.running →
      Doomed { b' with codes := b'.codes.set t (next ++ rest) } q.executor := by
    intro hd hd' hr
    refine .done hd' ?_
    show b'.running.count q.executor = 0
    rw [hr]
    exact List.count_eq_zero.2 (not_mem_running hq (by have := (hp q.executor).single; omega))
  cases hout
  case dequeue e =>
    by_cases hne : q.executor = e
    · have hl : 0 < (b.account e).leaving := List.countP_pos_iff.2 ⟨_, mem_todo ht, by simp⟩
      have hd : b.stage q.executor = .done := hne ▸ (hp e).leaving hl
      exact hdone hd hd rfl
    · exact hkeep (List.mem_filter.2 ⟨hq, by simpa using hne⟩)
  case take w e idle hi htake =>
    have hfits : rest = [.nextSlice w] := by rcases hi with ⟨rfl, -⟩ | ⟨rfl, -⟩ <;> exact (hf _ hmem).1
    cases htake with
    | found skipped head rest' faults hqueue hskip hfault hhead =>
      have hqueue : b.queue = skipped ++ head :: rest' := hqueue
      have hhead : b.stage head.executor = .queued := hhead
      rw [hqueue] at hq
      rcases List.mem_append.1 hq with hq' | hq'
      · have hd := done_of_not_queued (hqueue ▸ hq) (hp q.executor) (hskip q hq')
        have hne : q.executor ≠ head.executor := by
          intro heq
          rw [heq, hhead] at hd
          cases hd
        refine .done ?_ ?_
        · show (if q.executor = head.executor then Stage.running else b.stage q.executor) = .done
          rw [if_neg hne]
          exact hd
        · show (b.running ++ [head.executor]).count q.executor = 0
          rw [List.count_append, List.count_eq_zero.2 (not_mem_running (hqueue ▸ hq)
            (by have := (hp q.executor).single; omega))]
          simp [Ne.symm hne]
      · rcases List.mem_cons.1 hq' with rfl | hq'
        · refine .ending t w _ (codes_self ht he) ?_
          rw [hfits]
          exact .opening
        · exact hkeep hq'
  case close w idle hph hi htake =>
    cases htake with
    | nothing faults hskip =>
      have hd := done_of_not_queued hq (hp q.executor) (hskip q hq)
      exact hdone hd hd rfl
  case await w idle hph hi htake => exact absurd hph hphase
  case push e current codes runtime arrival hph hst hh hr hmany => exact absurd hph hphase
  case hire e slot current codes runtime arrival hph hst hh hr hslot => exact absurd hph hphase
  case withdraw e => exact hkeep (by simp only [mark]; split <;> exact hq)
  case requeue e runtime faults arrival hst hph hfaults hr => exact hkeep (mem_insert_of_mem hq)
  all_goals exact hkeep hq

/-- A worker in a scheduler that stops goes on with the unload of the executor that it took. -/
theorem doomed_of_ending (hp : (b.account e).Placed) (hphase : b.phase ≠ .running)
    (ht : b.codes[t]? = some (i :: rest)) (he : i.Effect { b with codes := b.codes.set t rest } b' next)
    (hout : Outcome { b with codes := b.codes.set t rest } g i b' g' next) {w : WorkerId}
    (hc : Ending e (b.stage e) w (i :: rest)) : Doomed { b' with codes := b'.codes.set t (next ++ rest) } e := by
  have hself := codes_self ht he
  generalize hcode : i :: rest = code at hc ht
  cases hc with
  | opening =>
    obtain ⟨rfl, rfl⟩ := List.cons.inj hcode
    cases hout with
    | begin _ _ hrun => exact absurd hrun hphase
    | skip => exact .ending t w _ hself .unloading
    | take _ _ _ _ _ _ hi => rcases hi with ⟨hi, -⟩ | ⟨hi, -⟩ <;> cases hi
    | close _ _ _ _ _ _ hi => rcases hi with ⟨hi, -⟩ | ⟨hi, -⟩ <;> cases hi
    | await _ _ _ _ _ _ hi => rcases hi with ⟨hi, -⟩ | ⟨hi, -⟩ <;> cases hi
  | unloading =>
    obtain ⟨rfl, rfl⟩ := List.cons.inj hcode
    have hpos : 0 < b.todo.countP (stays e) :=
      List.countP_pos_iff.2 ⟨.resetTimer e .never, List.mem_flatten.2 ⟨_, List.mem_of_getElem? ht, by simp⟩, by simp⟩
    have hstay : b.todo.countP (stays e) + b.current.count (some e) ≤ (b.account e).running := hp.staying
    cases hout with
    | unqueue _ hst =>
      have := (hp.queued hst).1
      omega
    | unload _ hst =>
      have := hp.idle hst
      omega
    | defer => exact .ending t w _ hself (.resetting (if_pos rfl))
    | take _ _ _ _ _ _ hi => rcases hi with ⟨hi, -⟩ | ⟨hi, -⟩ <;> cases hi
    | close _ _ _ _ _ _ hi => rcases hi with ⟨hi, -⟩ | ⟨hi, -⟩ <;> cases hi
    | await _ _ _ _ _ _ hi => rcases hi with ⟨hi, -⟩ | ⟨hi, -⟩ <;> cases hi
  | resetting hst =>
    obtain ⟨rfl, rfl⟩ := List.cons.inj hcode
    cases hout with
    | reset _ _ _ accounts ha hnever =>
      obtain rfl := hnever rfl
      exact .ending t w _ hself (.settling hst)
    | take _ _ _ _ _ _ hi => rcases hi with ⟨hi, -⟩ | ⟨hi, -⟩ <;> cases hi
    | close _ _ _ _ _ _ hi => rcases hi with ⟨hi, -⟩ | ⟨hi, -⟩ <;> cases hi
    | await _ _ _ _ _ _ hi => rcases hi with ⟨hi, -⟩ | ⟨hi, -⟩ <;> cases hi
  | settling hst =>
    obtain ⟨rfl, rfl⟩ := List.cons.inj hcode
    cases hout with
    | settle =>
      refine .done ?_ ?_
      · show (if e = e then (b.stage e).sliceEnded else b.stage e) = .done
        rw [if_pos rfl, hst]
        rfl
      · show (b.running.filter (· != e)).count e = 0
        simp [List.count_eq_zero]
    | requeue _ _ _ _ hrep =>
      have hrep : b.stage e = .repeating := hrep
      rw [hst] at hrep
      cases hrep
    | take _ _ _ _ _ _ hi => rcases hi with ⟨hi, -⟩ | ⟨hi, -⟩ <;> cases hi
    | close _ _ _ _ _ _ hi => rcases hi with ⟨hi, -⟩ | ⟨hi, -⟩ <;> cases hi
    | await _ _ _ _ _ _ hi => rcases hi with ⟨hi, -⟩ | ⟨hi, -⟩ <;> cases hi

/-- Whoever waits while the scheduler stops waits on to be unloaded, or is. -/
theorem Doomed.goes (h : b.Doomed e) (hf : b.Fitted) (ho : b.Orderly) (hp : ∀ e, (b.account e).Placed)
    (hphase : b.phase ≠ .running) {a : Action n} (hg : Goes b g a b' g') : b'.Doomed e := by
  have hmove := hg.moves.account ho e
  have hstage : ∀ {w : WorkerId} {code : List (Instr n)}, Ending e (b.stage e) w code → Ending e (b'.stage e) w code := by
    intro w code hc
    cases hc with
    | opening => exact .opening
    | unloading => exact .unloading
    | resetting hst => exact .resetting (hmove.done hst).1
    | settling hst => exact .settling (hmove.done hst).1
  cases h with
  | done hd hr =>
    obtain ⟨hd', hle⟩ := hmove.done hd
    have hr : (b.account e).running = 0 := hr
    exact .done hd' (show (b'.account e).running = 0 by omega)
  | waiting q hq he =>
    subst he
    cases hg with
    | step t i rest next b' g' ht hw he hl hd =>
      exact doomed_of_waiting hf hp hphase ht he (outcome hw he hl hd) hq
    | _ => exact .waiting q hq rfl
  | ending t w code ht hc =>
    have hne : ∀ i rest, b.codes[t]? = some (i :: rest) → (∀ w e, i ≠ .work w e) ∧ ∀ e o, i ≠ .account e o := by
      intro i rest hi
      rw [ht] at hi
      obtain rfl := Option.some.inj hi
      generalize hcode : i :: rest = code at hc
      cases hc <;> obtain ⟨rfl, -⟩ := List.cons.inj hcode <;> simp
    cases hg with
    | rest => exact .ending t w code ht hc
    | advance => exact .ending t w code ht hc
    | arrive c =>
      refine .ending t w code ?_ hc
      show (b.codes ++ _)[t]? = _
      rw [List.getElem?_append_left (List.getElem?_eq_some_iff.1 ht).1]
      exact ht
    | perform t' w' e' rest next a ht' ha =>
      have hd : t' ≠ t := fun heq => (hne _ _ (heq ▸ ht')).1 w' e' rfl
      exact .ending t w code ((List.getElem?_set_ne hd).trans ht) hc
    | tear t' e' o rest ht' hfail =>
      have hd : t' ≠ t := fun heq => (hne _ _ (heq ▸ ht')).2 e' o rfl
      exact .ending t w code ((List.getElem?_set_ne hd).trans ht) hc
    | step t' i rest next b' g' ht' hw he hl hd =>
      by_cases heq : t = t'
      · subst heq
        rw [ht] at ht'
        obtain rfl := Option.some.inj ht'
        exact doomed_of_ending (hp e) hphase ht he (outcome hw he hl hd) hc
      · exact .ending t w code (codes_other ht' he heq ht) (hstage hc)

end Books

/-! ## Who is taken is not run -/

namespace Instr

/-- Whether a worker opens a slice. -/
@[simp] def opens (w : WorkerId) : Instr n → Bool
  | .openSlice w' _ => w' = w
  | _ => false

/-- Whether an instruction prepares the work of an executor on a worker. -/
@[simp] def prepares (w : WorkerId) (e : Fin n) : Instr n → Bool
  | .noteAllocated w' e' | .publish w' e' _ => w' = w && e' = e
  | _ => false

/-- Whether an instruction comes to the work of an executor on a worker. -/
@[simp] def toWork (w : WorkerId) (e : Fin n) : Instr n → Bool
  | .noteAllocated w' e' | .publish w' e' _ | .callWork w' e' => w' = w && e' = e
  | _ => false

theorem countP_slices_le (w : WorkerId) (e : Fin n) (l : List (Instr n)) :
    l.countP (opens w) + l.countP (prepares w e) + l.countP (closes w e) ≤ l.countP (slices w) := by
  induction l with
  | nil => exact Nat.le_refl 0
  | cons i l ih =>
    have hi : (if opens w i then 1 else 0) + (if prepares w e i then 1 else 0) + (if closes w e i then 1 else 0) ≤
        if slices w i then 1 else 0 := by
      cases i <;> simp <;> grind
    rw [List.countP_cons, List.countP_cons, List.countP_cons, List.countP_cons]
    omega

theorem countP_toWork_le (w : WorkerId) (e : Fin n) (l : List (Instr n)) :
    l.countP (toWork w e) ≤ l.countP (prepares w e) + l.countP (Instr.works w e) := by
  induction l with
  | nil => exact Nat.le_refl 0
  | cons i l ih =>
    have hi : (if toWork w e i then 1 else 0) ≤
        (if prepares w e i then 1 else 0) + if Instr.works w e i then 1 else 0 := by
      cases i <;> simp
    rw [List.countP_cons, List.countP_cons, List.countP_cons]
    omega

end Instr

namespace Books

variable {b b' : Books n} {g g' : Gear n}

/-- A worker that opens a slice has none of before to work on. -/
theorem Orderly.toWork_eq_zero (ho : b.Orderly) {w : WorkerId} {e e' : Fin n} (h : .openSlice w e ∈ b.todo) :
    b.todo.countP (toWork w e') = 0 := by
  have hopen : 0 < b.todo.countP (opens w) := List.countP_pos_iff.2 ⟨_, h, by simp⟩
  have h1 := countP_slices_le w e' b.todo
  have h2 := ho.one_slice w
  have h3 := ho.works_le w e'
  have h4 := countP_toWork_le w e' b.todo
  omega

theorem toWork_begins (w : WorkerId) (e : Fin n) (code : List (Instr n)) (h : Begins code) :
    code.countP (toWork w e) = 0 := by
  rcases h with ⟨w', rfl⟩ | rfl <;> simp

/-- Whoever was taken has not begun to work since on the worker that took it, and is not about to. -/
def InVain (b : Books n) (deeds : List (Event n)) : Prop :=
  ∀ (w : WorkerId) (e : Fin n) (before after : List (Event n)), deeds = before ++ .taken e w :: after →
    .workBegan e w ∉ after ∧ b.todo.countP (toWork w e) = 0

theorem InVain.mono {deeds : List (Event n)} (h : b.InVain deeds)
    (hle : ∀ w e, b'.todo.countP (toWork w e) ≤ b.todo.countP (toWork w e)) : b'.InVain deeds := by
  intro w e before after hd
  obtain ⟨hb, hz⟩ := h w e before after hd
  have := hle w e
  exact ⟨hb, by omega⟩

theorem InVain.concat {deeds : List (Event n)} (h : b.InVain deeds) {v : Event n}
    (hle : ∀ w e, b'.todo.countP (toWork w e) ≤ b.todo.countP (toWork w e))
    (hbegan : ∀ w e, v = .workBegan e w → 0 < b.todo.countP (toWork w e))
    (htaken : ∀ w e, v = .taken e w → b'.todo.countP (toWork w e) = 0) : b'.InVain (deeds ++ [v]) := by
  intro w e before after hd
  rcases List.eq_nil_or_concat after with rfl | ⟨after', v', rfl⟩
  · obtain ⟨-, hv⟩ := List.append_inj' hd rfl
    exact ⟨by simp, htaken w e (List.cons.inj hv).1⟩
  · rw [List.concat_eq_append, ← List.cons_append, ← List.append_assoc] at hd
    obtain ⟨hbefore, hv⟩ := List.append_inj' hd rfl
    obtain rfl := (List.cons.inj hv).1
    obtain ⟨hb, hz⟩ := h w e before after' hbefore
    refine ⟨fun hm => ?_, by have := hle w e; omega⟩
    rw [List.concat_eq_append, List.mem_append, List.mem_singleton] at hm
    rcases hm with hm | hm
    · exact hb hm
    · have := hbegan w e hm.symm
      omega

theorem seeks_taken {w : WorkerId} {e : Fin n} {next : List (Instr n)} (h : Seeks w b g g' next)
    (hd : g'.deeds = g.deeds ++ [.taken e w]) : next = [.openSlice w e] := by
  rcases h with ⟨e', rfl, rfl⟩ | ⟨-, -, rfl⟩ | ⟨-, -, rfl⟩
  · have hv : [Event.taken e' w] = [.taken e w] := List.append_cancel_left hd
    cases hv
    rfl
  · simp at hd
  · simp at hd

/-- Nobody who is taken while the scheduler stops begins to work on the worker that took it. -/
theorem InVain.goes {deeds : List (Event n)} (h : b.InVain deeds) (ho' : b'.Orderly) (hphase : b.phase ≠ .running)
    {a : Action n} (hg : Goes b g a b' g') : ∃ more, g'.deeds = g.deeds ++ more ∧ b'.InVain (deeds ++ more) := by
  have hkeep : ∀ c : Books n, (∀ w e, c.todo.countP (toWork w e) ≤ b.todo.countP (toWork w e)) →
      ∃ more, g.deeds = g.deeds ++ more ∧ c.InVain (deeds ++ more) :=
    fun c hle => ⟨[], by simp, by simpa using h.mono hle⟩
  cases hg with
  | rest => exact hkeep _ fun _ _ => Nat.le_refl _
  | advance => exact hkeep _ fun _ _ => Nat.le_refl _
  | arrive c =>
    refine hkeep _ fun w e => ?_
    rw [countP_arrive]
    simp
  | perform t w e rest next a ht ha =>
    refine hkeep _ fun w' e' => ?_
    have hc := countP_replace (toWork w' e') ht next
    have hz : next.countP (toWork w' e') = 0 := by
      rw [List.countP_eq_zero]
      intro x hx
      cases ha.leads.yields hx <;> simp
    omega
  | tear t e o rest ht hfail => exact hkeep _ fun w e => countP_tear _ ht
  | step t i rest next b' g' ht hw he hl hd =>
    have hout := outcome hw he hl hd
    obtain ⟨more, hmore, hdeeds⟩ := hd.deeds
    have hcount := fun w e => countP_step (toWork_begins w e) ht he
    have hle : ∀ w e, next.countP (toWork w e) ≤ [i].countP (toWork w e) := by
      intro w e
      rcases Nat.eq_zero_or_pos (next.countP (toWork w e)) with hz | hpos
      · omega
      · obtain ⟨x, hx, hwork⟩ := List.countP_pos_iff.1 hpos
        cases hl.yields hx with
        | note => rcases hd with ⟨-, ⟨hrun, -⟩ | ⟨-, rfl⟩⟩ <;> simp_all
        | publish => rcases hl with rfl | ⟨a, rfl⟩ <;> simp
        | callWork => cases hl; simp [List.countP_cons]
        | _ => cases hwork
    have hle' : ∀ w e, ({ b' with codes := b'.codes.set t (next ++ rest) } : Books n).todo.countP (toWork w e) ≤
        b.todo.countP (toWork w e) := by
      intro w e
      have h1 := hcount w e
      have h2 := hle w e
      omega
    refine ⟨more, hmore, ?_⟩
    have hplain : more = [] → ({ b' with codes := b'.codes.set t (next ++ rest) } : Books n).InVain (deeds ++ more) := by
      rintro rfl
      simpa using h.mono hle'
    have hother : ∀ v, more = [v] → (∀ w e, v ≠ .workBegan e w) → (∀ w e, v ≠ .taken e w) →
        ({ b' with codes := b'.codes.set t (next ++ rest) } : Books n).InVain (deeds ++ more) := by
      rintro v rfl h1 h2
      exact h.concat hle' (fun w e hv => absurd hv (h1 w e)) fun w e hv => absurd hv (h2 w e)
    have htake : ∀ w, (∀ e, more = [.taken e w] → next = [.openSlice w e]) → (more = [] ∨ ∃ e, more = [.taken e w]) →
        ({ b' with codes := b'.codes.set t (next ++ rest) } : Books n).InVain (deeds ++ more) := by
      rintro w hopen (hnil | ⟨e, rfl⟩)
      · exact hplain hnil
      · refine h.concat hle' (fun w e hv => by cases hv) fun w' e' hv => ?_
        obtain ⟨rfl, rfl⟩ := Event.taken.inj hv
        refine ho'.toWork_eq_zero (e := e) (List.mem_flatten.2 ⟨_, List.mem_of_getElem? (codes_self ht he), ?_⟩)
        rw [hopen e rfl]
        simp
    cases i
    case callHost e callback => exact hother _ hdeeds (fun _ _ => by simp) fun _ _ => by simp
    case writeReport e o thread => exact hother _ hdeeds (fun _ _ => by simp) fun _ _ => by simp
    case resetTimer e slice =>
      obtain ⟨elapsed, hdeeds⟩ := hdeeds
      exact hother _ hdeeds (fun _ _ => by simp) fun _ _ => by simp
    case retire w =>
      rcases hdeeds with hdeeds | hdeeds
      · exact hplain hdeeds
      · exact hother _ hdeeds (fun _ _ => by simp) fun _ _ => by simp
    case press w e o =>
      rcases hdeeds with hdeeds | hdeeds
      · exact hplain hdeeds
      · exact hother _ hdeeds (fun _ _ => by simp) fun _ _ => by simp
    case callWork w e =>
      obtain rfl : more = [.workBegan e w] := hdeeds
      refine h.concat hle' (fun w' e' hv => ?_) fun w' e' hv => by cases hv
      obtain ⟨rfl, rfl⟩ := Event.workBegan.inj hv
      exact List.countP_pos_iff.2 ⟨_, mem_todo ht, by simp⟩
    case seekWork w => exact htake w (fun e hm => seeks_taken (g := { g with idle := g.idle + 1 }) hd (hm ▸ hmore)) hdeeds
    case awaitWork w => exact htake w (fun e hm => seeks_taken hd (hm ▸ hmore)) hdeeds
    all_goals exact hplain hdeeds

end Books

end FairShare.Scheduler
