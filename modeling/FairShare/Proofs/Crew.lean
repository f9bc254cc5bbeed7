import FairShare.Proofs.Tally

/-!
# The crew of a scheduler

Every worker has a thread that comes back for the next executor until the worker is retired, as long as no observer of the
host tears that thread down. So the workers that are counted are the threads that can take work, and the workers that are on
their way out of a slot.
-/

namespace FairShare.Scheduler

variable {n : Nat}

namespace Books

open Instr

variable {b b' : Books n} {g g' : Gear n}

/-- Every worker that is not retired has a thread that comes back for an executor. -/
def Peopled (b : Books n) : Prop :=
  ∀ w : WorkerId, b.live[w]? = some true → ∃ code ∈ b.codes, .nextSlice w ∈ code

/-- Whoever is started along the way begins with a thread of its own. -/
theorem Hires.recruits (h : b.Hires b') (hlen : b.live.length = b.current.length) {w : WorkerId}
    (hup : b'.live[w]? = some true) : b.live[w]? = some true ∨ [.startWorker w, .nextSlice w] ∈ b'.codes := by
  induction h with
  | refl b => exact Or.inl hup
  | watchdog _ ih => exact ih hlen hup
  | @worker b b' h ih =>
    rcases ih (by simp [hireWorker, hlen]) hup with hup | hnew
    · have hup : (b.live ++ [true])[w]? = some true := hup
      rcases Nat.lt_or_ge w b.live.length with hlt | hge
      · exact Or.inl (List.getElem?_append_left hlt ▸ hup)
      · obtain rfl : w = b.current.length := by
          have hlt := (List.getElem?_eq_some_iff.1 hup).1
          rw [List.length_append, List.length_singleton] at hlt
          exact hlen ▸ Nat.le_antisymm (Nat.le_of_lt_succ hlt) hge
        refine Or.inr (List.mem_of_getElem? (h.codes (t := b.codes.length) ?_))
        exact List.getElem?_concat_length
    · exact Or.inr hnew

end Books

namespace Instr

variable {b b' : Books n} {g g' : Gear n} {i : Instr n} {rest next : List (Instr n)}

/-- A worker that is not retired was not retired before, or its thread begins. -/
theorem Outcome.recruits (ho : Outcome b g i b' g' next) (hlen : b.live.length = b.current.length) {w : WorkerId}
    (hup : b'.live[w]? = some true) : b.live[w]? = some true ∨ [.startWorker w, .nextSlice w] ∈ b'.codes := by
  cases ho
  case hire hh _ _ => exact hh.recruits hlen hup
  case replace hh _ _ => exact hh.recruits hlen hup
  case withdraw e =>
    refine Or.inl ?_
    revert hup
    show (if b.stage e = .queued then b.setStage e .idle else b).live[w]? = some true → _
    split <;> exact id
  case take hi h => exact Or.inl (h.staff.2.1 ▸ hup)
  case close hi h => exact Or.inl (h.staff.2.1 ▸ hup)
  case await hi h => exact Or.inl (h.staff.2.1 ▸ hup)
  case retire w' hw' =>
    rw [List.getElem?_set] at hup
    split at hup
    · simp at hup
    · exact Or.inl hup
  all_goals exact Or.inl hup

/-- A thread that has the next round of a worker to do still has it after a step, unless the worker is retired. -/
theorem Outcome.comesBack (ho : Outcome b g i b' g' next) {w : WorkerId} (hup : b.live[w]? = some true)
    (h : .nextSlice w ∈ i :: rest) : .nextSlice w ∈ next ++ rest := by
  rcases List.mem_cons.1 h with rfl | h
  · cases ho
    case round => simp
    case dismiss hdown => rw [hup] at hdown; cases hdown
    case stray hnone => rw [hup] at hnone; cases hnone
    case take hi _ => rcases hi with ⟨hi, -⟩ | ⟨hi, -⟩ <;> cases hi
    case close hi _ => rcases hi with ⟨hi, -⟩ | ⟨hi, -⟩ <;> cases hi
    case await hi _ => rcases hi with ⟨hi, -⟩ | ⟨hi, -⟩ <;> cases hi
  · exact List.mem_append_right next h

end Instr

namespace Books

open Instr

variable {b b' : Books n} {g g' : Gear n}

/-- No worker loses its thread before it is retired, as long as no observer fails. -/
theorem Peopled.goes (h : b.Peopled) (ho : b.Orderly) (hcalm : ∀ e, (g.host e).sink ≠ .host true) {a : Action n}
    (hg : Goes b g a b' g') : b'.Peopled := by
  cases hg with
  | rest => exact h
  | advance nanos => exact h
  | arrive c =>
    intro w hup
    obtain ⟨code, hc, hnext⟩ := h w hup
    exact ⟨code, List.mem_append_left _ hc, hnext⟩
  | perform t w' e rest next a ht ha =>
    intro w hup
    obtain ⟨code, hc, hnext⟩ := h w hup
    obtain ⟨t', ht'⟩ := List.getElem?_of_mem hc
    by_cases hne : t = t'
    · subst hne
      obtain rfl : .work w' e :: rest = code := Option.some.inj (ht.symm.trans ht')
      refine ⟨next ++ rest, List.mem_set (List.getElem?_eq_some_iff.1 ht).1 _, List.mem_append_right next ?_⟩
      simpa using hnext
    · refine ⟨code, List.mem_of_getElem? (i := t') ?_, hnext⟩
      rwa [List.getElem?_set_ne hne]
  | step t i rest next b' g' ht hw he hl hd =>
    intro w hup
    have hout := outcome hw he hl hd
    have hself := codes_self ht he
    rcases hout.recruits ho.lengths hup with hold | hnew
    · obtain ⟨code, hc, hnext⟩ := h w hold
      obtain ⟨t', ht'⟩ := List.getElem?_of_mem hc
      by_cases heq : t' = t
      · subst heq
        obtain rfl : i :: rest = code := Option.some.inj (ht.symm.trans ht')
        exact ⟨next ++ rest, List.mem_of_getElem? hself, hout.comesBack hold hnext⟩
      · exact ⟨code, List.mem_of_getElem? (codes_other ht he heq ht'), hnext⟩
    · obtain ⟨t', ht'⟩ := List.getElem?_of_mem hnew
      by_cases heq : t' = t
      · -- Hiring only adds threads, so this one has what it had left to do.
        subst heq
        obtain ⟨hired, hh, hsame⟩ := hires_of_effect he
        have hrest : hired.codes[t']? = some rest :=
          hh.codes (List.getElem?_set_self (List.getElem?_eq_some_iff.1 ht).1)
        obtain rfl : _ = rest := Option.some.inj (ht'.symm.trans (hsame ▸ hrest))
        exact ⟨_, List.mem_of_getElem? hself, List.mem_append_right next (by simp)⟩
      · refine ⟨[.startWorker w, .nextSlice w], List.mem_of_getElem? (i := t') ?_, by simp⟩
        show (b'.codes.set t (next ++ rest))[t']? = _
        rw [List.getElem?_set_ne (Ne.symm heq), ht']
  | tear t e o rest ht hf => exact absurd hf (hcalm e)

/-- The next round of a worker is the last thing that its thread has to do. -/
theorem Fitted.last_nextSlice (h : b.Fitted) {code : List (Instr n)} (hc : code ∈ b.codes) {w : WorkerId}
    (hnext : .nextSlice w ∈ code) : code.getLast? = some (.nextSlice w) := by
  obtain ⟨front, rest, rfl⟩ := List.append_of_mem hnext
  have hfits : Fitting (.nextSlice w :: rest) := (h _ hc).of_append
  obtain rfl : rest = [] := hfits.1
  exact List.getLast?_concat

end Books

namespace Pool

open Instr

variable {s : Pool n}

/-- Whether a thread comes back for an executor: it is that of a worker that is not retired. -/
def comesBack (s : Pool n) (t : ThreadId) : Bool :=
  (s.code t).any fun
    | .nextSlice w => !s.retired w
    | _ => false

theorem comesBack_iff {t : ThreadId} :
    s.comesBack t = true ↔ ∃ w, .nextSlice w ∈ s.code t ∧ s.retired w = false := by
  constructor
  · intro h
    obtain ⟨i, hi, hback⟩ := List.any_eq_true.1 h
    cases i with
    | nextSlice w => exact ⟨w, hi, by simpa using hback⟩
    | _ => cases hback
  · rintro ⟨w, hw, hup⟩
    exact List.any_eq_true.2 ⟨_, hw, by simp [hup]⟩

/-- The threads that can take work. -/
def hands (s : Pool n) : List ThreadId := (List.range s.threads.length).filter s.comesBack

/-- The workers that are retired and have still to leave their slots. -/
def leavers (s : Pool n) : List WorkerId := s.posted.filter s.retired

theorem codes_of_mem {t : ThreadId} {i : Instr n} (h : i ∈ s.code t) : s.books.codes[t]? = some (s.code t) := by
  cases hcode : s.code t with
  | nil => simp [hcode] at h
  | cons j rest => exact codes_of_code hcode

theorem mem_hands {t : ThreadId} : t ∈ s.hands ↔ ∃ w, .nextSlice w ∈ s.code t ∧ s.retired w = false := by
  rw [hands, List.mem_filter, comesBack_iff, List.mem_range]
  refine and_iff_right_of_imp fun ⟨w, hw, _⟩ => ?_
  have hlt := (List.getElem?_eq_some_iff.1 (codes_of_mem hw)).1
  simpa [books] using hlt

theorem lt_of_posted (h : s.Manning) {w : WorkerId} (hw : w ∈ s.posted) : w < s.workers.length := by
  obtain ⟨k, hk⟩ := mem_posted.1 hw
  have hlt := (List.getElem?_eq_some_iff.1 (h.seated.seated k w hk)).1
  simpa [h.seated.seats, books] using hlt

theorem lt_of_nextSlice (ho : s.books.Orderly) {t : ThreadId} {w : WorkerId} (h : .nextSlice w ∈ s.code t) :
    w < s.workers.length := by
  by_contra hge
  have hzero := ho.fresh w (by simpa [books] using hge)
  have hmem : .nextSlice w ∈ s.books.todo := List.mem_flatten.2 ⟨_, List.mem_of_getElem? (codes_of_mem h), h⟩
  exact List.countP_eq_zero.1 hzero _ hmem (by simp)

/-- A worker that has a slot and is not retired has a thread that comes back. -/
theorem exists_hand (h : s.Manning) (hp : s.books.Peopled) {w : WorkerId} (hw : w ∈ s.posted) (hup : s.retired w = false) :
    ∃ t, .nextSlice w ∈ s.code t := by
  obtain ⟨code, hc, hnext⟩ := hp w ((retired_false (lt_of_posted h hw)).1 hup)
  obtain ⟨t, ht⟩ := List.getElem?_of_mem hc
  exact ⟨t, by rw [code_eq, ht]; exact hnext⟩

theorem nextSlice_unique (h : s.Manning) {t : ThreadId} {w w' : WorkerId} (hw : .nextSlice w ∈ s.code t)
    (hw' : .nextSlice w' ∈ s.code t) : w = w' := by
  have hmem := List.mem_of_getElem? (codes_of_mem hw)
  have hlast := (h.fitted.last_nextSlice hmem hw).symm.trans (h.fitted.last_nextSlice hmem hw')
  simpa using hlast

/-- A worker that is not retired has a slot and a thread of its own. -/
theorem length_hands (h : s.Manning) (ho : s.books.Orderly) (hp : s.books.Peopled) :
    s.hands.length = (s.posted.filter fun w => !s.retired w).length := by
  have hdistinct : s.posted.Nodup := h.seated.distinct
  have honce : s.hands.Nodup := List.nodup_range.filter _
  have hmem : ∀ {w}, w ∈ (s.posted.filter fun w => !s.retired w).toFinset ↔ w ∈ s.posted ∧ s.retired w = false := by
    simp
  rw [← List.toFinset_card_of_nodup (hdistinct.filter _), ← List.toFinset_card_of_nodup honce]
  -- The worker of a thread is the one that it comes back for.
  have hworker : ∀ t ∈ s.hands.toFinset, ∃ w, .nextSlice w ∈ s.code t ∧ s.retired w = false := by
    intro t ht
    exact mem_hands.1 (List.mem_toFinset.1 ht)
  refine Finset.card_bij (fun t ht => (hworker t ht).choose) ?into ?injective ?onto
  case into =>
    intro t ht
    obtain ⟨hnext, hup⟩ := (hworker t ht).choose_spec
    have hlive := (retired_false (lt_of_nextSlice ho hnext)).1 hup
    exact hmem.2 ⟨mem_posted.2 (h.seated.holds _ (Or.inl hlive)), hup⟩
  case injective =>
    intro t ht t' ht' heq
    have hnext := (hworker t ht).choose_spec.1
    have hnext' := (hworker t' ht').choose_spec.1
    exact ho.thread_unique (codes_of_mem hnext) (codes_of_mem hnext') hnext (heq ▸ hnext')
  case onto =>
    intro w hw
    obtain ⟨hpost, hup⟩ := hmem.1 hw
    obtain ⟨t, hnext⟩ := exists_hand h hp hpost hup
    have ht : t ∈ s.hands.toFinset := List.mem_toFinset.2 (mem_hands.2 ⟨w, hnext, hup⟩)
    exact ⟨t, ht, nextSlice_unique h (hworker t ht).choose_spec.1 hnext⟩

/-- As many workers are counted as threads can take work and workers have still to leave their slots. -/
theorem workerCount_eq (h : s.Manning) (ho : s.books.Orderly) (hp : s.books.Peopled) :
    s.workerCount = s.hands.length + s.leavers.length := by
  rw [← h.length_posted, length_hands h ho hp, leavers, Nat.add_comm]
  exact List.length_eq_length_filter_add s.retired

end Pool

end FairShare.Scheduler
