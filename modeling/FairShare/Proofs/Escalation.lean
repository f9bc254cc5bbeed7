import FairShare.Proofs.Watching

/-!
# Escalation

What the watchdog does to a worker whose executor is past its budget, check by check and over whole runs. The further
past, the more it does: from one step of escalation on the hard abort is up, from two on the worker is interrupted, and
from three on its slice is taken from it. None of that happens earlier, and the host is told of the hard abort once in a
slice.
-/

namespace FairShare.Scheduler

variable {n : Nat}

open Instr

/-! ## Time -/

namespace Gear

variable (g : Gear n) (e : Fin n)

/-- The time since the budget of an executor was armed, in nanoseconds. -/
def elapsed : Nat := g.clock - (g.timeout e).clock.armedAt

/-- Some rungs lie behind an executor: its budget and as many steps of escalation have passed since it was armed. -/
def Late (k : Nat) : Prop :=
  (g.timeout e).clock.start ≠ none ∧ (g.timeout e).clock.budget.nanos + k * g.rung ≤ g.elapsed e

variable {g : Gear n} {e : Fin n}

theorem late_of_overrun {k : Nat} (hk : 0 < k * g.rung) (h : k * g.rung ≤ (g.overrun e).nanos) : g.Late e k := by
  have hle : (g.overrun e).nanos ≤ (-(g.timeout e).clock.remaining g.clock).toNat := Nat.min_le_left ..
  unfold SliceClock.remaining at hle
  unfold Late
  cases hs : (g.timeout e).clock.start with
  | none =>
    rw [hs] at hle
    simp only at hle
    omega
  | some start =>
    rw [hs] at hle
    simp only at hle
    have hel : g.elapsed e = g.clock - (g.timeout e).clock.armedAt := rfl
    exact ⟨by simp, by omega⟩

@[simp] theorem overrun_after (x : TimeoutState) (up : List Bool) (deeds : List (Event n)) :
    (g.after e x up deeds).overrun e = x.overrun g.clock := by
  unfold overrun
  rw [after_timeout_self]
  rfl

end Gear

/-! ## What a check leaves -/

section

variable {b b' : Books n} {g g' : Gear n} {w : WorkerId} {e : Fin n}

open Gear

/-- What a check does is told by how many rungs lie behind the executor. -/
theorem Ladder.deeds (h : Ladder b g w e b' g') :
    ∃ reports unloads elapsed, Reports e reports ∧ Unloads e unloads ∧
      g'.deeds = g.deeds ++
        ((if g.rung ≤ (g.overrun e).nanos then g.aborts e else []) ++
          (if 2 * g.rung ≤ (g.overrun e).nanos then .interrupted w :: reports else []) ++
          if 3 * g.rung ≤ (g.overrun e).nanos then .retired w :: .timerReset e elapsed :: unloads else []) := by
  cases h with
  | refresh codes x hx h =>
    refine ⟨[], [], 0, Or.inl rfl, Or.inl rfl, ?_⟩
    rw [if_neg (by omega), if_neg (by omega), if_neg (by omega)]
    rfl
  | abort codes x hx h h' =>
    refine ⟨[], [], 0, Or.inl rfl, Or.inl rfl, ?_⟩
    rw [if_pos h, if_neg (by omega), if_neg (by omega)]
    simp [raised, after]
  | interrupt codes x reports hx hr h h' =>
    refine ⟨reports, [], 0, hr, Or.inl rfl, ?_⟩
    rw [if_pos (by omega), if_pos h, if_neg (by omega)]
    simp [pressed, after]
  | tear codes x reports elapsed hx hr h hf =>
    refine ⟨reports, [], elapsed, hr, Or.inl rfl, ?_⟩
    rw [if_pos (by omega), if_pos (by omega), if_pos h]
    simp [Gear.abandoned, after]
  | leave b₁ x reports unloads elapsed slot hx hr h hu =>
    refine ⟨reports, unloads, elapsed, hr, hu, ?_⟩
    rw [if_pos (by omega), if_pos (by omega), if_pos h]
    simp [Gear.abandoned, after, Gear.leave, discount]
  | replace b₁ codes x reports unloads elapsed slot hx hr h hu =>
    refine ⟨reports, unloads, elapsed, hr, hu, ?_⟩
    rw [if_pos (by omega), if_pos (by omega), if_pos h]
    simp [Gear.abandoned, after, Gear.leave, discount, Gear.hire]

/-- What becomes of the timeouts. -/
theorem Ladder.timeout (h : Ladder b g w e b' g') :
    (∀ e', e' ≠ e → g'.timeout e' = g.timeout e') ∧ ∃ x, g.Refreshes e x ∧ g'.timeout e =
      if 3 * g.rung ≤ (g.overrun e).nanos then x.hardAbort.reset
      else if g.rung ≤ (g.overrun e).nanos then x.hardAbort else x := by
  cases h with
  | refresh codes x hx h =>
    refine ⟨fun e' hne => if_neg hne, x, hx, ?_⟩
    rw [if_neg (by omega), if_neg (by omega)]
    exact if_pos rfl
  | abort codes x hx h h' =>
    refine ⟨fun e' hne => if_neg hne, x, hx, ?_⟩
    rw [if_neg (by omega), if_pos h]
    exact if_pos rfl
  | interrupt codes x reports hx hr h h' =>
    refine ⟨fun e' hne => if_neg hne, x, hx, ?_⟩
    rw [if_neg (by omega), if_pos (by omega)]
    exact if_pos rfl
  | tear codes x reports elapsed hx hr h hf =>
    refine ⟨fun e' hne => if_neg hne, x, hx, ?_⟩
    rw [if_pos h]
    exact if_pos rfl
  | leave b₁ x reports unloads elapsed slot hx hr h hu =>
    refine ⟨fun e' hne => if_neg hne, x, hx, ?_⟩
    rw [if_pos h]
    exact if_pos rfl
  | replace b₁ codes x reports unloads elapsed slot hx hr h hu =>
    refine ⟨fun e' hne => if_neg hne, x, hx, ?_⟩
    rw [if_pos h]
    exact if_pos rfl

/-- A worker is interrupted from the second rung on. -/
theorem Ladder.interrupted (h : Ladder b g w e b' g') :
    ∃ fresh : List Bool, (∀ x ∈ fresh, x = false) ∧ g'.interrupted =
      (if 2 * g.rung ≤ (g.overrun e).nanos then g.interrupted.set w true else g.interrupted) ++ fresh := by
  cases h with
  | refresh codes x hx h =>
    rw [if_neg (by omega)]
    exact ⟨[], by simp, (List.append_nil _).symm⟩
  | abort codes x hx h h' =>
    rw [if_neg (by omega)]
    exact ⟨[], by simp, (List.append_nil _).symm⟩
  | interrupt codes x reports hx hr h h' =>
    rw [if_pos h]
    exact ⟨[], by simp, (List.append_nil _).symm⟩
  | tear codes x reports elapsed hx hr h hf =>
    rw [if_pos (by omega)]
    exact ⟨[], by simp, (List.append_nil _).symm⟩
  | leave b₁ x reports unloads elapsed slot hx hr h hu =>
    rw [if_pos (by omega)]
    exact ⟨[], by simp, (List.append_nil _).symm⟩
  | replace b₁ codes x reports unloads elapsed slot hx hr h hu =>
    rw [if_pos (by omega)]
    exact ⟨[false], by simp, rfl⟩

/-- Nothing else changes up to the third rung. -/
theorem Ladder.kept (h : Ladder b g w e b' g') (ho : (g.overrun e).nanos < 3 * g.rung) :
    (∃ codes, b' = { b with codes }) ∧ g'.slots = g.slots ∧ g'.workerCount = g.workerCount := by
  cases h with
  | refresh codes => exact ⟨⟨codes, rfl⟩, rfl, rfl⟩
  | abort codes => exact ⟨⟨codes, rfl⟩, rfl, rfl⟩
  | interrupt codes => exact ⟨⟨codes, rfl⟩, rfl, rfl⟩
  | _ => omega

/-- From the third rung on the worker leaves its slot, unless an observer tears the watchdog down. -/
theorem Ladder.left (h : Ladder b g w e b' g') (ho : 3 * g.rung ≤ (g.overrun e).nanos)
    (hf : (g.host e).sink ≠ .host true) :
    ∃ (b₁ : Books n) (slot : Nat), b.Abandoned w e b₁ ∧ b'.phase = b₁.phase ∧ b'.queue = b₁.queue ∧
      b'.running = b₁.running ∧ b'.stage = b₁.stage ∧ g.slots[slot]? = some (some w) ∧
      (b₁.Respawns → b'.live = b₁.live ++ [true] ∧ g'.started = g.started ++ [false] ∧
        g'.slots = g.slots.set slot (some g.seats.length) ∧ g'.workerCount = g.workerCount - 1 + 1) ∧
      (¬b₁.Respawns → b'.live = b₁.live ∧ g'.slots = g.slots.set slot none ∧ g'.workerCount = g.workerCount - 1) := by
  cases h with
  | tear codes x reports elapsed hx hr h hfail => exact absurd hfail hf
  | leave _ x reports unloads elapsed slot hx hr h hu hb hn hs hs' =>
    exact ⟨_, slot, hb, rfl, rfl, rfl, rfl, hs', fun hr => absurd hr hn, fun _ => ⟨rfl, rfl, rfl⟩⟩
  | replace b₁ codes x reports unloads elapsed slot hx hr h hu hb hn hs hs' =>
    exact ⟨b₁, slot, hb, rfl, rfl, rfl, rfl, hs', fun _ => ⟨rfl, rfl, List.set_set .., rfl⟩, fun hr => absurd hn hr⟩
  | _ => omega

end

/-! ## Nothing too early -/

namespace Books

variable {b b' : Books n} {g g' : Gear n} {w : WorkerId} {e : Fin n} {t : ThreadId} {i : Instr n}
  {rest next : List (Instr n)}

/-- A watchdog whose next instruction is none that it has outside of its checks is in the middle of one. -/
theorem Watched.middle (h : b.Watched g) (ht : b.codes[t]? = some (i :: rest)) (hwatch : rest.any watches = true)
    (hi : i.isRound = false) :
    ∃ b₀ g₀ w e front, Checkable b₀ g₀ w e ∧ Midway b₀ g₀ w e (i :: front) b g := by
  rcases h.watchful _ (List.mem_of_getElem? ht) (by simp [hwatch]) with
    hall | ⟨b₀, g₀, w, e, front, rest', hcode, hround, hc, hm⟩
  · rw [hall i (List.mem_cons_self ..)] at hi
    cases hi
  · obtain ⟨j, front, rfl, -⟩ := hm.head
    obtain ⟨rfl, -⟩ := List.cons.inj hcode
    exact ⟨b₀, g₀, w, e, front, hc, hm⟩

/-- The hard abort is raised from the first rung on. -/
theorem Watched.late_raise (h : b.Watched g) (hf : b.Fitted) (hpos : 0 < g.rung) {o : Duration}
    (ht : b.codes[t]? = some (.raise w e o :: rest)) : g.Late e 1 := by
  have hround : Round rest := (hf _ (List.mem_of_getElem? ht)).1
  obtain ⟨b₀, g₀, w', e', front, hc, hm⟩ := h.middle ht (watches_of_round hround) rfl
  generalize hcode : Instr.raise w e o :: front = code at hm
  cases hm <;> cases hcode
  case raise codes x hx hle =>
    have hg : (g₀.after e x g₀.interrupted []).rung = g₀.rung := rfl
    refine Gear.late_of_overrun (by omega) ?_
    rw [Gear.overrun_after, hx.overrun, hg]
    omega

/-- The host is told of the hard abort from the first rung on. -/
theorem Watched.late_abort (h : b.Watched g) (hf : b.Fitted) (hpos : 0 < g.rung)
    (ht : b.codes[t]? = some (.callHost e .abortWithTimeout :: rest)) : g.Late e 1 := by
  obtain ⟨w, o, round, hround, hrest⟩ := (hf _ (List.mem_of_getElem? ht)).1
  have hwatch : rest.any watches = true := by simp [hrest, watches_of_round hround]
  obtain ⟨b₀, g₀, w', e', front, hc, hm⟩ := h.middle ht hwatch rfl
  generalize hcode : Instr.callHost e .abortWithTimeout :: front = code at hm
  cases hm <;> cases hcode
  case abort codes x hx hle hh =>
    have hg : (g₀.after e x.hardAbort g₀.interrupted []).rung = g₀.rung := rfl
    refine Gear.late_of_overrun (by omega) ?_
    rw [Gear.overrun_after, TimeoutState.hardAbort_overrun, hx.overrun, hg]
    omega

/-- A worker is interrupted for an executor from the second rung on. -/
theorem Watched.late_press (h : b.Watched g) (hf : b.Fitted) (hpos : 0 < g.rung) {o : Duration}
    (ht : b.codes[t]? = some (.press w e o :: rest)) (ho : 2 * g.rung ≤ o.nanos) :
    b.current[w]? = some (some e) ∧ g.Late e 2 := by
  have hround : Round rest := (hf _ (List.mem_of_getElem? ht)).1
  obtain ⟨b₀, g₀, w', e', front, hc, hm⟩ := h.middle ht (watches_of_round hround) rfl
  generalize hcode : Instr.press w e o :: front = code at hm
  cases hm <;> cases hcode
  case press codes x hx hle =>
    have hg : (g₀.raised e x).rung = g₀.rung := rfl
    refine ⟨hc.current, Gear.late_of_overrun (by omega) ?_⟩
    rw [Gear.raised, Gear.overrun_after, TimeoutState.hardAbort_overrun, hx.overrun]
    exact ho

/-- A worker is retired by another thread for an executor from the third rung on. -/
theorem Watched.late_retire (h : b.Watched g) (hpos : 0 < g.rung) (hround : Round rest)
    (ht : b.codes[t]? = some (.retire w :: rest)) : ∃ e, b.current[w]? = some (some e) ∧ g.Late e 3 := by
  obtain ⟨b₀, g₀, w', e, front, hc, hm⟩ := h.middle ht (watches_of_round hround) rfl
  generalize hcode : Instr.retire w :: front = code at hm
  cases hm <;> cases hcode
  case retire codes x reports hx hr hle =>
    have hg : (g₀.pressed w e x reports).rung = g₀.rung := rfl
    refine ⟨e, hc.current, Gear.late_of_overrun (by omega) ?_⟩
    rw [Gear.pressed, Gear.overrun_after, TimeoutState.hardAbort_overrun, hx.overrun]
    exact hle

/-- What may be done to an executor past its budget, and to its worker, by an action. -/
def Due (b : Books n) (g : Gear n) (a : Action n) : Event n → Prop
  | .called e .abortWithTimeout => g.Late e 1
  | .interrupted w => ∃ e, b.current[w]? = some (some e) ∧ g.Late e 2
  | .retired w => (∃ t code, a = .step t ∧ b.codes[t]? = some code ∧ .nextSlice w ∈ code) ∨
    ∃ e, b.current[w]? = some (some e) ∧ g.Late e 3
  | _ => True

/-- Whatever is done is due. -/
theorem Watched.due_step (h : b.Watched g) (hf : b.Fitted) (hpos : 0 < g.rung) (ht : b.codes[t]? = some (i :: rest))
    (ho : Outcome { b with codes := b.codes.set t rest } g i b' g' next) :
    ∃ deeds, g'.deeds = g.deeds ++ deeds ∧ ∀ v ∈ deeds, b.Due g (.step t) v := by
  have hone : ∀ v, b.Due g (.step t) v → ∃ deeds, g.deeds ++ [v] = g.deeds ++ deeds ∧ ∀ v ∈ deeds, b.Due g (.step t) v :=
    fun v hv => ⟨[v], rfl, by simpa using hv⟩
  cases ho
  case callHost e callback hc =>
    refine hone _ ?_
    cases callback
    case abortWithTimeout => exact h.late_abort hf hpos ht
    all_goals trivial
  case tell e => exact hone _ trivial
  case take w e idle hi h' => exact hone _ trivial
  case callWork w e => exact hone _ trivial
  case reset e slice elapsed accounts ha hnever => exact hone _ trivial
  case writeReport e o thread => exact hone _ trivial
  case press w e o ho ho' hc => exact hone _ ⟨e, h.late_press hf hpos ht ho⟩
  case giveUp w e o ho hc =>
    have hrung : g.config.timeouts.abortTimeout.nanos = g.rung := rfl
    exact hone _ ⟨e, h.late_press hf hpos ht (by omega)⟩
  case retire w hlive =>
    refine hone _ ?_
    rcases (hf _ (List.mem_of_getElem? ht)).1 with rfl | rfl | hround
    · have hdead := h.guarded.dismissed _ (List.mem_of_getElem? ht) w rfl
      rw [hlive] at hdead
      cases hdead
    · exact Or.inl ⟨t, _, rfl, ht, by simp⟩
    · exact Or.inr (h.late_retire hpos hround ht)
  all_goals exact ⟨[], (List.append_nil _).symm, by simp⟩

theorem Watched.due (h : b.Watched g) (hf : b.Fitted) (hpos : 0 < g.rung) {a : Action n} (hg : Goes b g a b' g') :
    ∃ deeds, g'.deeds = g.deeds ++ deeds ∧ ∀ v ∈ deeds, b.Due g a v := by
  cases hg with
  | step t i rest next b' g' ht hw he hl hd => exact h.due_step hf hpos ht (outcome hw he hl hd)
  | _ => exact ⟨[], (List.append_nil _).symm, by simp⟩

/-- The hard abort is raised by a call, or by the watchdog and not too early. -/
theorem Watched.aborted (h : b.Watched g) (hf : b.Fitted) (hpos : 0 < g.rung) {a : Action n} (hg : Goes b g a b' g')
    (hdown : (g.timeout e).flags.hardAborted = false) (hup : (g'.timeout e).flags.hardAborted = true) :
    (∃ t rest, a = .step t ∧ b.codes[t]? = some (.call (.hardAbort e) :: rest)) ∨ g.Late e 1 := by
  cases hg with
  | step t i rest next b' g' ht hw he hl hd =>
    have hr := hd.timeout e
    generalize g'.timeout e = x at hr hup
    cases hr with
    | keep => rw [hdown] at hup; cases hup
    | refresh share => rw [TimeoutState.refresh_hardAborted, hdown] at hup; cases hup
    | arm budget => rw [TimeoutState.armClock_hardAborted, hdown] at hup; cases hup
    | hardAbort => exact Or.inl ⟨t, rest, rfl, ht⟩
    | raise w o => exact Or.inr (h.late_raise hf hpos ht)
    | start => rw [TimeoutState.startClock_flags, hdown] at hup; cases hup
    | clear => cases hup
    | reset => cases hup
  | _ => rw [hdown] at hup; cases hup

end Books

/-! ## Once in a slice -/

/-- Whether an action is a call of the host that resets the timeout of an executor. -/
def Action.clears (e : Fin n) : Action n → Bool
  | .call (.resetTimer e') | .work _ (.call (.resetTimer e')) => e' = e
  | _ => false

/-- How often the host has been told of a hard abort of an executor since its last slice ended, after an event. -/
def Event.abortsAfter (e : Fin n) (k : Nat) : Event n → Nat
  | .called e' .abortWithTimeout => if e' = e then k + 1 else k
  | .timerReset e' _ => if e' = e then 0 else k
  | _ => k

/-- How often the host has been told of a hard abort of an executor since its last slice ended. -/
def abortsInSlice (e : Fin n) (deeds : List (Event n)) : Nat := deeds.foldl (Event.abortsAfter e) 0

@[simp] theorem abortsInSlice_concat (e : Fin n) (deeds : List (Event n)) (v : Event n) :
    abortsInSlice e (deeds ++ [v]) = Event.abortsAfter e (abortsInSlice e deeds) v := by
  simp [abortsInSlice]

namespace Instr

/-- Whether an instruction resets the timeout of an executor for the host. -/
@[simp] def clears (e : Fin n) : Instr n → Bool
  | .call (.resetTimer e') => e' = e
  | _ => false

/-- Whether an instruction tells the host of a hard abort of an executor. -/
@[simp] def aborts (e : Fin n) : Instr n → Bool
  | .callHost e' .abortWithTimeout => e' = e
  | _ => false

theorem eq_of_aborts {e : Fin n} {i : Instr n} (h : i.aborts e = true) : i = .callHost e .abortWithTimeout := by
  cases i
  case callHost e' callback =>
    cases callback
    case abortWithTimeout =>
      have he : e' = e := by simpa using h
      rw [he]
    all_goals cases h
  all_goals cases h

theorem eq_of_clears {e : Fin n} {i : Instr n} (h : i.clears e = true) : i = .call (.resetTimer e) := by
  cases i
  case call c =>
    cases c
    case resetTimer e' =>
      have he : e' = e := by simpa using h
      rw [he]
    all_goals cases h
  all_goals cases h

variable {b b' : Books n} {g g' : Gear n} {i : Instr n} {next deeds : List (Event n)} {e : Fin n}

theorem Deeds.aborts_le (h : i.Deeds deeds) (hi : i ≠ .callHost e .abortWithTimeout) (l : List (Event n)) :
    abortsInSlice e (l ++ deeds) ≤ abortsInSlice e l := by
  have hnil : deeds = [] → abortsInSlice e (l ++ deeds) ≤ abortsInSlice e l := by
    rintro rfl
    rw [List.append_nil]
  cases i
  case callHost e' callback =>
    cases h
    rw [abortsInSlice_concat]
    cases callback
    case abortWithTimeout =>
      have hne : e' ≠ e := by simpa using hi
      simp [Event.abortsAfter, hne]
    all_goals exact Nat.le_refl _
  case callWork w e' => cases h; rw [abortsInSlice_concat]; exact Nat.le_refl _
  case writeReport e' o thread => cases h; rw [abortsInSlice_concat]; exact Nat.le_refl _
  case resetTimer e' slice =>
    obtain ⟨elapsed, rfl⟩ := h
    rw [abortsInSlice_concat]
    simp only [Event.abortsAfter]
    split <;> omega
  case retire w =>
    rcases h with h | rfl
    · exact hnil h
    · rw [abortsInSlice_concat]; exact Nat.le_refl _
  case press w e' o =>
    rcases h with h | rfl
    · exact hnil h
    · rw [abortsInSlice_concat]; exact Nat.le_refl _
  case seekWork w =>
    rcases h with h | ⟨e', rfl⟩
    · exact hnil h
    · rw [abortsInSlice_concat]; exact Nat.le_refl _
  case awaitWork w =>
    rcases h with h | ⟨e', rfl⟩
    · exact hnil h
    · rw [abortsInSlice_concat]; exact Nat.le_refl _
  all_goals exact hnil h

/-- Only a reset takes the hard abort down. -/
theorem Drive.hardAborted {next : List (Instr n)} (hd : i.Drive b b' g g' next)
    (hr : ∀ slice, i ≠ .resetTimer e slice) (hc : i ≠ .call (.resetTimer e))
    (hup : (g.timeout e).flags.hardAborted = true) : (g'.timeout e).flags.hardAborted = true := by
  have ht := hd.timeout e
  generalize g'.timeout e = x at ht ⊢
  cases ht with
  | keep => exact hup
  | refresh share => rw [TimeoutState.refresh_hardAborted]; exact hup
  | arm budget => rw [TimeoutState.armClock_hardAborted]; exact hup
  | hardAbort => rfl
  | raise w o => rfl
  | start => rw [TimeoutState.startClock_flags]; exact hup
  | clear => exact absurd rfl hc
  | reset slice => exact absurd rfl (hr slice)

end Instr

namespace Books

variable {b b' : Books n} {g g' : Gear n} {e : Fin n} {t : ThreadId} {i : Instr n} {rest next : List (Instr n)}
  {a : Action n}

/-- The host is told of a hard abort right after that was raised. -/
theorem Watched.aborts (h : b.Watched g) (hf : b.Fitted) (hw : b.Whole a) (hpos : 0 < b.todo.countP (aborts e)) :
    ∃ t rest, a = .step t ∧ b.codes[t]? = some (.callHost e .abortWithTimeout :: rest) := by
  obtain ⟨i, hi, ha⟩ := List.countP_pos_iff.1 hpos
  obtain rfl := eq_of_aborts ha
  obtain ⟨code, hcode, hi⟩ := List.mem_flatten.1 hi
  obtain ⟨t, ht⟩ := List.getElem?_of_mem hcode
  obtain ⟨before, after, hsplit⟩ := List.append_of_mem hi
  have hfits := hf _ hcode
  rw [hsplit] at hfits
  obtain ⟨⟨w, o, round, hround, hafter⟩, -⟩ := hfits.of_append
  have hwatch : code.any watches = true := by simp [hsplit, hafter, watches_of_round hround]
  rcases h.watchful _ hcode hwatch with hall | ⟨b₀, g₀, w', e', front, rest, rfl, hround', -, hm⟩
  · cases hall _ hi
  · have hfront : .callHost e .abortWithTimeout ∈ front := by
      refine (List.mem_append.1 hi).resolve_right fun hr => ?_
      cases isRound_of_round hround' _ hr
    have hstep := hw t _ ht (hm.checking hround')
    have hhead : ∃ front', front = .callHost e .abortWithTimeout :: front' := by
      cases hm with
      | abort codes x hx hle hh =>
        obtain rfl : e = e' := by simpa using hfront
        exact ⟨_, rfl⟩
      | report | writeReport =>
        split at hfront <;> simp at hfront
      | _ => simp at hfront
    obtain ⟨front', rfl⟩ := hhead
    exact ⟨t, _, hstep, ht⟩

/-- The host is told of a hard abort of an executor at most once in a slice. -/
structure Once (b : Books n) (g : Gear n) (e : Fin n) : Prop where
  /-- The host does not reset the timeout. -/
  clears : b.todo.countP (clears e) = 0
  /-- The host is told once the hard abort is up, and not again. -/
  aborts : abortsInSlice e g.deeds + b.todo.countP (aborts e) ≤ if (g.timeout e).flags.hardAborted then 1 else 0

theorem aborts_begins (code : List (Instr n)) (h : Begins code) : code.countP (Instr.aborts e) = 0 := by
  rcases h with ⟨w, rfl⟩ | rfl <;> simp

theorem clears_begins (code : List (Instr n)) (h : Begins code) : code.countP (Instr.clears e) = 0 := by
  rcases h with ⟨w, rfl⟩ | rfl <;> simp

theorem clears_call (c : Call n) : Instr.clears e (.call c) = (Action.call c).clears e := by
  cases c <;> rfl

/-- As long as the host does not reset the timeout, nobody is about to do it for the host. -/
theorem clears_goes (h : b.todo.countP (clears e) = 0) (ha : a.clears e = false) (hg : Goes b g a b' g') :
    b'.todo.countP (clears e) = 0 := by
  cases hg with
  | rest => exact h
  | advance => exact h
  | arrive c =>
    rw [countP_arrive, h, List.countP_cons_of_neg (by rw [clears_call, ha]; exact Bool.false_ne_true)]
    rfl
  | perform t w e' rest next a ht hb =>
    have hcount := countP_replace (clears e) ht next
    have hnext : next.countP (clears e) = 0 := by
      cases a with
      | call c =>
        cases hb
        have hc : Instr.clears e (.call c) = false := by
          rw [clears_call, ← ha]
          cases c <;> rfl
        rw [List.countP_cons_of_neg (by rw [hc]; exact Bool.false_ne_true)]
        rfl
      | sleep nanos => obtain ⟨deadline, rfl⟩ := hb; simp
      | observe o => cases hb; simp
      | allocate bytes => cases hb; simp
      | finish result => cases hb; simp
    omega
  | step t i rest next b' g' ht hwork he hl hd =>
    refine none_step clears_begins ht he (fun hpos => ?_) h
    obtain ⟨x, hx, hclears⟩ := List.countP_pos_iff.1 hpos
    obtain rfl := eq_of_clears hclears
    cases hl.yields hx with
    | call w e' => exact absurd rfl (hwork w e')
  | tear t e' o rest ht hfail =>
    have hclears := countP_tear (clears e) ht
    omega

/-- Somebody who is to tell the host of a hard abort has raised it, or was there before. -/
theorem Once.aborts_step (h : b.Once g e) (hwatched : b.Watched g) (hf : b.Fitted) (hw : b.Whole (.step t))
    (ht : b.codes[t]? = some (i :: rest)) (he : i.Effect { b with codes := b.codes.set t rest } b' next)
    (hl : i.Leads next) (hd : i.Drive { b with codes := b.codes.set t rest } b' g g' next) :
    abortsInSlice e g'.deeds + ({ b' with codes := b'.codes.set t (next ++ rest) } : Books n).todo.countP (Instr.aborts e) ≤
      if (g'.timeout e).flags.hardAborted then 1 else 0 := by
  have hcount := countP_step (aborts_begins (e := e)) ht he
  have hold := h.aborts
  have hclear : i ≠ .call (.resetTimer e) := by
    rintro rfl
    have hpos := countP_head_le (Instr.clears e) ht
    rw [h.clears] at hpos
    simp at hpos
  by_cases hi : i = .callHost e .abortWithTimeout
  · subst hi
    cases hd
    have hz : next.countP (Instr.aborts e) = 0 := by cases hl; rfl
    have hself : [Instr.callHost e .abortWithTimeout].countP (Instr.aborts e) = 1 := by simp
    have habs : abortsInSlice e (g.deed (.called e .abortWithTimeout)).deeds = abortsInSlice e g.deeds + 1 := by
      simp [Gear.deed, Event.abortsAfter]
    rw [habs]
    refine Nat.le_trans ?_ hold
    omega
  obtain ⟨deeds, hdeeds, hk⟩ := hd.deeds
  have hle := hk.aborts_le hi g.deeds
  rw [← hdeeds] at hle
  have hone : [i].countP (Instr.aborts e) = 0 := List.countP_cons_of_neg fun ha => hi (eq_of_aborts ha)
  by_cases hnext : .callHost e .abortWithTimeout ∈ next
  · cases hl.yields hnext with
    | abort w _ o =>
      obtain ⟨rfl, hn⟩ := hd
      have hflag : ((g.onTimeout e (·.hardAbort)).timeout e).flags.hardAborted = true := by simp [Gear.onTimeout]
      rw [hflag, if_pos rfl]
      cases hup : (g.timeout e).flags.hardAborted with
      | true =>
        rw [hup, if_pos rfl] at hn
        rw [hn] at hnext
        simp at hnext
      | false =>
        rw [hup, if_neg (by decide)] at hn hold
        have hnew : next.countP (Instr.aborts e) = 1 := by simp [hn]
        omega
  · have hz : next.countP (Instr.aborts e) = 0 := by
      rw [List.countP_eq_zero]
      intro x hx ha
      exact hnext (eq_of_aborts ha ▸ hx)
    by_cases hr : ∃ slice, i = .resetTimer e slice
    · obtain ⟨slice, rfl⟩ := hr
      have hnone : b.todo.countP (Instr.aborts e) = 0 := by
        refine Nat.eq_zero_of_not_pos fun hpos => ?_
        obtain ⟨t', rest', hstep, ht'⟩ := hwatched.aborts hf hw hpos
        obtain rfl : t = t' := by simpa using hstep
        rw [ht] at ht'
        cases ht'
      obtain ⟨⟨elapsed, rfl⟩, -⟩ := hd
      have habs : abortsInSlice e ((g.onTimeout e (·.reset)).deed (.timerReset e elapsed)).deeds = 0 := by
        simp [Gear.deed, Event.abortsAfter]
      omega
    · have hkeep := hd.hardAborted (e := e) (fun slice hs => hr ⟨slice, hs⟩) hclear
      cases hup : (g.timeout e).flags.hardAborted with
      | true =>
        rw [hkeep hup, if_pos rfl]
        rw [hup, if_pos rfl] at hold
        omega
      | false =>
        rw [hup, if_neg (by decide)] at hold
        omega

theorem Once.goes (h : b.Once g e) (hwatched : b.Watched g) (hf : b.Fitted) (hw : b.Whole a) (ha : a.clears e = false)
    (hg : Goes b g a b' g') : b'.Once g' e := by
  have hclears := clears_goes h.clears ha hg
  cases hg with
  | rest => exact h
  | advance => exact ⟨hclears, h.aborts⟩
  | arrive c =>
    refine ⟨hclears, ?_⟩
    rw [countP_arrive]
    exact h.aborts
  | perform t w e' rest next a ht hb =>
    have haborts := countP_replace (Instr.aborts e) ht next
    have hnext : next.countP (Instr.aborts e) = 0 := by
      cases a with
      | call c => cases hb; simp
      | sleep nanos => obtain ⟨deadline, rfl⟩ := hb; simp
      | observe o => cases hb; simp
      | allocate bytes => cases hb; simp
      | finish result => cases hb; simp
    have hold := h.aborts
    simp only [List.countP_cons, List.countP_nil, Instr.aborts] at haborts
    refine ⟨hclears, ?_⟩
    simp at haborts
    omega
  | step t i rest next b' g' ht hwork he hl hd =>
    exact ⟨hclears, h.aborts_step hwatched hf hw ht he hl hd⟩
  | tear t e' o rest ht hfail =>
    have haborts := countP_tear (Instr.aborts e) ht
    have hold := h.aborts
    exact ⟨hclears, by omega⟩

end Books

namespace Pool

open Gear

/-! ## Checks -/

/-- How far an executor is past its budget, in nanoseconds. -/
def overrun (s : Pool n) (e : Fin n) : Nat := ((s.executor e).timeout.overrun s.clock).nanos

/-- The time between two steps of escalation, in nanoseconds. -/
def rung (s : Pool n) : Nat := s.config.timeouts.abortTimeout.nanos

/-- The flags of an executor. -/
def flags (s : Pool n) (e : Fin n) : Flags := (s.executor e).timeout.flags

/-- What was done to slices, to workers and to the host. -/
def deeds (s : Pool n) : List (Event n) := s.history.toList.filter Event.isDeed

theorem interrupted_eq (s : Pool n) (w : WorkerId) : s.interrupted w = (s.gear.interrupted[w]?).getD false := by
  simp only [interrupted, gear, List.getElem?_map]
  cases s.workers[w]? <;> rfl

theorem config_goes {b b' : Books n} {g g' : Gear n} {a : Action n} (hg : Goes b g a b' g') : g'.config = g.config := by
  cases hg with
  | step t i rest next b' g' ht hw he hl hd => cases outcome hw he hl hd <;> rfl
  | _ => rfl

/-- The settings stay as they are. -/
theorem run_config (s : Pool n) (actions : List (Action n)) : (s.run actions).config = s.config := by
  induction actions generalizing s with
  | nil => rfl
  | cons a actions ih => exact (ih (s.act a)).trans (config_goes (act_goes s a))

theorem rung_pos {config : SchedulerConfig} (h : config.validate = .ok ()) : 0 < config.timeouts.abortTimeout.nanos := by
  refine Nat.pos_of_ne_zero fun hz => ?_
  have hfault : ∃ fault, config.timeouts.validate = .error fault := by
    unfold TimeoutConfig.validate
    split
    · exact ⟨_, rfl⟩
    · exact ⟨_, if_pos (by simp [Duration.isZero, hz])⟩
  obtain ⟨fault, hfault⟩ := hfault
  unfold SchedulerConfig.validate at h
  rw [hfault] at h
  split_ifs at h

/-- The work of the executor goes on for a time, in nanoseconds, and the watchdog is about to check its worker. -/
def overdue (nanos : Nat) : List (Action 1) := begun ++ steps 1 3 ++ [.advance nanos] ++ steps 1 2

/-- The settings with a step of escalation that no overrun reaches. -/
def patience : SchedulerConfig := { timeouts := { abortTimeout := beyondWord } }

end Pool

end FairShare.Scheduler
