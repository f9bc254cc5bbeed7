import FairShare.Proofs.Flags
import FairShare.Proofs.Stopping

/-!
# A check of the watchdog

What the watchdog does about one worker, instruction by instruction. `Midway` says where it stands and what it has done
since it found the worker with a slice, and `Ladder` what it has done at the end: the further the executor is past its
budget, the more rungs of the ladder were climbed.
-/

namespace FairShare.Scheduler

variable {n : Nat}

open Instr

/-! ## What a check does to the gear -/

namespace Gear

/-- The time between two rungs, in nanoseconds. -/
def rung (g : Gear n) : Nat := g.config.timeouts.abortTimeout.nanos

/-- How far an executor is past its budget. -/
def overrun (g : Gear n) (e : Fin n) : Duration := (g.timeout e).overrun g.clock

/-- The gear when the timeout of an executor has become another, workers were interrupted and some more was done. -/
def after (g : Gear n) (e : Fin n) (x : TimeoutState) (interrupted : List Bool) (deeds : List (Event n)) : Gear n :=
  { g with timeout := fun e' => if e' = e then x else g.timeout e', interrupted, deeds := g.deeds ++ deeds }

variable (g : Gear n) (e : Fin n) (x : TimeoutState) (up : List Bool) (deeds : List (Event n))

@[simp] theorem after_timeout_self : (g.after e x up deeds).timeout e = x := if_pos rfl

theorem onTimeout_eq_after (f : TimeoutState → TimeoutState) :
    g.onTimeout e f = g.after e (f (g.timeout e)) g.interrupted [] := by
  simp [onTimeout, after]

theorem after_onTimeout (f : TimeoutState → TimeoutState) :
    (g.after e x up deeds).onTimeout e f = g.after e (f x) up deeds := by
  unfold onTimeout after
  simp only [if_true]
  congr
  funext e'
  split <;> rfl

theorem after_deed (v : Event n) : (g.after e x up deeds).deed v = g.after e x up (deeds ++ [v]) := by
  simp [deed, after, List.append_assoc]

theorem after_interrupt {w : WorkerId} (h : g.started[w]? = some true) :
    (g.after e x up deeds).interrupt w = g.after e x (up.set w true) deeds := by
  have hup : up.modify w (fun i => (g.started[w]?).getD false || i) = up.set w true := by
    apply List.ext_getElem? fun j => ?_
    rw [List.getElem?_modify, List.getElem?_set]
    by_cases hj : w = j
    · subst hj
      by_cases hlt : w < up.length <;> simp [hlt, h]
    · simp [hj]
  unfold interrupt after
  simp only [hup]

/-- The timeout of an executor after a refresh. -/
def Refreshes (g : Gear n) (e : Fin n) (x : TimeoutState) : Prop :=
  ∃ share : Share, x = (g.timeout e).refresh share g.clock

/-- The call of the host that a hard abort comes with when it is newly raised. -/
def aborts (g : Gear n) (e : Fin n) : List (Event n) :=
  if (g.timeout e).flags.hardAborted then [] else [.called e .abortWithTimeout]

/-- Whoever reports an overrun may ask the host what the computer is doing. -/
def Reports (e : Fin n) (deeds : List (Event n)) : Prop := deeds = [] ∨ deeds = [.called e .writeState]

/-- The gear when the hard abort of an executor is up, and the host was told if it was not before. -/
def raised (g : Gear n) (e : Fin n) (x : TimeoutState) : Gear n := g.after e x.hardAbort g.interrupted (g.aborts e)

/-- The gear when the worker was interrupted as well, and the overrun perhaps reported. -/
def pressed (g : Gear n) (w : WorkerId) (e : Fin n) (x : TimeoutState) (reports : List (Event n)) : Gear n :=
  g.after e x.hardAbort (g.interrupted.set w true) (g.aborts e ++ .interrupted w :: reports)

/-- The gear when the worker was retired and its slice taken from it, and the host perhaps told of an unload. -/
def abandoned (g : Gear n) (w : WorkerId) (e : Fin n) (x : TimeoutState) (reports : List (Event n)) (elapsed : Nat)
    (unloads : List (Event n)) : Gear n :=
  g.after e x.hardAbort.reset (g.interrupted.set w true)
    (g.aborts e ++ .interrupted w :: reports ++ .retired w :: .timerReset e elapsed :: unloads)

end Gear

/-! ## The ladder -/

open Gear

/-- A worker that the watchdog finds with a slice, and can take it from. -/
structure Checkable (b : Books n) (g : Gear n) (w : WorkerId) (e : Fin n) : Prop where
  current : b.current[w]? = some (some e)
  live : b.live[w]? = some true
  started : g.started[w]? = some true
  slot : ∃ slot, g.seats[w]? = some slot ∧ g.slots[slot]? = some (some w)

/-- The books when a slice was taken over. -/
structure Books.Abandoned (b : Books n) (w : WorkerId) (e : Fin n) (b' : Books n) : Prop where
  phase : b'.phase = b.phase
  live : b'.live = b.live.set w false
  current : b'.current = b.current.set w none
  running : b'.running = b.running.filter (· != e)
  stage : b'.stage e = (b.stage e).sliceEnded
  /-- It is queued again if it was submitted meanwhile. -/
  queue : (b.stage e = .repeating ∧ b.phase ≠ .closed ∧ ∃ q, q.executor = e ∧ b'.queue = Entry.insert q b.queue) ∨
    ¬(b.stage e = .repeating ∧ b.phase ≠ .closed) ∧ b'.queue = b.queue

/-- Whether a worker that leaves its slot is replaced. -/
def Books.Respawns (b : Books n) : Prop := b.phase = .running ∨ b.phase = .stopping ∧ b.queue ≠ []

/-- Whoever takes a slice over tells the host of an unload that was left to the end of the slice. -/
def Unloads (e : Fin n) (deeds : List (Event n)) : Prop := deeds = [] ∨ deeds = [.called e .unload]

section

variable (b : Books n) (g : Gear n) (w : WorkerId) (e : Fin n)

/-- What a check of a worker that has a slice comes to, by how far the executor is past its budget. -/
inductive Ladder : Books n → Gear n → Prop where
  /-- It is refreshed. -/
  | refresh (codes : List (List (Instr n))) (x : TimeoutState) (hx : g.Refreshes e x)
    (h : (g.overrun e).nanos < g.rung) : Ladder { b with codes } (g.after e x g.interrupted [])
  /-- The hard abort is raised. -/
  | abort (codes : List (List (Instr n))) (x : TimeoutState) (hx : g.Refreshes e x)
    (h : g.rung ≤ (g.overrun e).nanos) (h' : (g.overrun e).nanos < 2 * g.rung) :
    Ladder { b with codes } (g.raised e x)
  /-- The worker is interrupted as well. -/
  | interrupt (codes : List (List (Instr n))) (x : TimeoutState) (reports : List (Event n)) (hx : g.Refreshes e x)
    (hr : Reports e reports) (h : 2 * g.rung ≤ (g.overrun e).nanos) (h' : (g.overrun e).nanos < 3 * g.rung) :
    Ladder { b with codes } (g.pressed w e x reports)
  /-- The slice is taken from the worker, and an observer tears the watchdog down. -/
  | tear (codes : List (List (Instr n))) (x : TimeoutState) (reports : List (Event n)) (elapsed : Nat)
    (hx : g.Refreshes e x) (hr : Reports e reports) (h : 3 * g.rung ≤ (g.overrun e).nanos)
    (hf : (g.host e).sink = .host true) :
    Ladder { b with live := b.live.set w false, current := b.current.set w none, codes }
      (g.abandoned w e x reports elapsed [])
  /-- The slice is taken from the worker, which leaves its slot. -/
  | leave (b₁ : Books n) (x : TimeoutState) (reports unloads : List (Event n)) (elapsed slot : Nat)
    (hx : g.Refreshes e x) (hr : Reports e reports) (h : 3 * g.rung ≤ (g.overrun e).nanos) (hu : Unloads e unloads)
    (hb : b.Abandoned w e b₁) (hn : ¬b₁.Respawns)
    (hs : g.seats[w]? = some slot) (hs' : g.slots[slot]? = some (some w)) :
    Ladder b₁ ((g.abandoned w e x reports elapsed unloads).leave slot)
  /-- The slice is taken from the worker, which leaves its slot to a new one. -/
  | replace (b₁ : Books n) (codes : List (List (Instr n))) (x : TimeoutState) (reports unloads : List (Event n))
    (elapsed slot : Nat) (hx : g.Refreshes e x) (hr : Reports e reports) (h : 3 * g.rung ≤ (g.overrun e).nanos)
    (hu : Unloads e unloads) (hb : b.Abandoned w e b₁) (hn : b₁.Respawns)
    (hs : g.seats[w]? = some slot) (hs' : g.slots[slot]? = some (some w)) :
    Ladder { b₁ with current := b₁.current ++ [none], live := b₁.live ++ [true], codes }
      (((g.abandoned w e x reports elapsed unloads).leave slot).hire slot)

/-- What the watchdog still has to do in a check, and what it has done. -/
inductive Midway : List (Instr n) → Books n → Gear n → Prop where
  | refresh (codes : List (List (Instr n))) : Midway [.call (.refresh e), .measure w e] { b with codes } g
  | measure (codes : List (List (Instr n))) (x : TimeoutState) (hx : g.Refreshes e x) :
    Midway [.measure w e] { b with codes } (g.after e x g.interrupted [])
  | raise (codes : List (List (Instr n))) (x : TimeoutState) (hx : g.Refreshes e x)
    (h : g.rung ≤ (g.overrun e).nanos) :
    Midway [.raise w e (g.overrun e)] { b with codes } (g.after e x g.interrupted [])
  | abort (codes : List (List (Instr n))) (x : TimeoutState) (hx : g.Refreshes e x)
    (h : g.rung ≤ (g.overrun e).nanos) (hh : (g.timeout e).flags.hardAborted = false) :
    Midway [.callHost e .abortWithTimeout, .press w e (g.overrun e)] { b with codes }
      (g.after e x.hardAbort g.interrupted [])
  | press (codes : List (List (Instr n))) (x : TimeoutState) (hx : g.Refreshes e x)
    (h : g.rung ≤ (g.overrun e).nanos) : Midway [.press w e (g.overrun e)] { b with codes } (g.raised e x)
  | report (codes : List (List (Instr n))) (x : TimeoutState) (hx : g.Refreshes e x)
    (h : 2 * g.rung ≤ (g.overrun e).nanos) :
    Midway (.report w e (g.overrun e) :: if 3 * g.rung ≤ (g.overrun e).nanos then [.retire w] else [])
      { b with codes } (g.pressed w e x [])
  | writeReport (codes : List (List (Instr n))) (x : TimeoutState) (thread : String) (hx : g.Refreshes e x)
    (h : 2 * g.rung ≤ (g.overrun e).nanos) :
    Midway (.writeReport e (g.overrun e) thread :: if 3 * g.rung ≤ (g.overrun e).nanos then [.retire w] else [])
      { b with codes } (g.pressed w e x [])
  | retire (codes : List (List (Instr n))) (x : TimeoutState) (reports : List (Event n)) (hx : g.Refreshes e x)
    (hr : Reports e reports) (h : 3 * g.rung ≤ (g.overrun e).nanos) :
    Midway [.retire w] { b with codes } (g.pressed w e x reports)
  | take (codes : List (List (Instr n))) (x : TimeoutState) (reports : List (Event n)) (hx : g.Refreshes e x)
    (hr : Reports e reports) (h : 3 * g.rung ≤ (g.overrun e).nanos) :
    Midway [.takeAbandoned w, .decideRespawn w] { b with live := b.live.set w false, codes }
      ((g.pressed w e x reports).deed (.retired w))
  | reset (codes : List (List (Instr n))) (x : TimeoutState) (reports : List (Event n)) (hx : g.Refreshes e x)
    (hr : Reports e reports) (h : 3 * g.rung ≤ (g.overrun e).nanos) :
    Midway [.resetTimer e .abandoned, .decideRespawn w]
      { b with live := b.live.set w false, current := b.current.set w none, codes }
      ((g.pressed w e x reports).deed (.retired w))
  | account (codes : List (List (Instr n))) (x : TimeoutState) (reports : List (Event n)) (elapsed : Nat)
    (o : Metrics.Observation) (hx : g.Refreshes e x) (hr : Reports e reports) (h : 3 * g.rung ≤ (g.overrun e).nanos) :
    Midway [.account e o, .settle e, .decideRespawn w]
      { b with live := b.live.set w false, current := b.current.set w none, codes }
      (g.abandoned w e x reports elapsed [])
  | settle (codes : List (List (Instr n))) (x : TimeoutState) (reports : List (Event n)) (elapsed : Nat)
    (hx : g.Refreshes e x) (hr : Reports e reports) (h : 3 * g.rung ≤ (g.overrun e).nanos) :
    Midway [.settle e, .decideRespawn w]
      { b with live := b.live.set w false, current := b.current.set w none, codes }
      (g.abandoned w e x reports elapsed [])
  | finishUnload (b₁ : Books n) (x : TimeoutState) (reports : List (Event n)) (elapsed : Nat) (hx : g.Refreshes e x)
    (hr : Reports e reports) (h : 3 * g.rung ≤ (g.overrun e).nanos) (hb : b.Abandoned w e b₁) :
    Midway [.finishUnload e, .decideRespawn w] b₁ (g.abandoned w e x reports elapsed [])
  | unload (b₁ : Books n) (x : TimeoutState) (reports : List (Event n)) (elapsed : Nat) (hx : g.Refreshes e x)
    (hr : Reports e reports) (h : 3 * g.rung ≤ (g.overrun e).nanos) (hb : b.Abandoned w e b₁) :
    Midway [.callHost e .unload, .announce e, .decideRespawn w] b₁ (g.abandoned w e x reports elapsed [])
  | announce (b₁ : Books n) (x : TimeoutState) (reports : List (Event n)) (elapsed : Nat) (hx : g.Refreshes e x)
    (hr : Reports e reports) (h : 3 * g.rung ≤ (g.overrun e).nanos) (hb : b.Abandoned w e b₁) :
    Midway [.announce e, .decideRespawn w] b₁ (g.abandoned w e x reports elapsed [.called e .unload])
  | decide (b₁ : Books n) (x : TimeoutState) (reports unloads : List (Event n)) (elapsed : Nat) (hx : g.Refreshes e x)
    (hr : Reports e reports) (h : 3 * g.rung ≤ (g.overrun e).nanos) (hu : Unloads e unloads)
    (hb : b.Abandoned w e b₁) :
    Midway [.decideRespawn w] b₁ (g.abandoned w e x reports elapsed unloads)
  | vacate (b₁ : Books n) (respawn : Bool) (x : TimeoutState) (reports unloads : List (Event n)) (elapsed : Nat)
    (hx : g.Refreshes e x) (hr : Reports e reports) (h : 3 * g.rung ≤ (g.overrun e).nanos) (hu : Unloads e unloads)
    (hb : b.Abandoned w e b₁) (hn : respawn = true ↔ b₁.Respawns) :
    Midway [.vacate w respawn] b₁ (g.abandoned w e x reports elapsed unloads)

end

/-! ## Steps of a check -/

variable {b c c' : Books n} {g k k' : Gear n} {w : WorkerId} {e : Fin n}

theorem Books.Abandoned.congr {b₁ b₂ : Books n} (h : b.Abandoned w e b₁) (hp : b₂.phase = b₁.phase)
    (hl : b₂.live = b₁.live) (hc : b₂.current = b₁.current) (hr : b₂.running = b₁.running)
    (hs : b₂.stage = b₁.stage) (hq : b₂.queue = b₁.queue) : b.Abandoned w e b₂ where
  phase := hp.trans h.phase
  live := hl.trans h.live
  current := hc.trans h.current
  running := hr.trans h.running
  stage := by rw [hs]; exact h.stage
  queue := by rw [hq]; exact h.queue

/-- Whoever settles an executor whose slice was taken over has abandoned its worker. -/
theorem Books.Settles.abandoned {codes : List (List (Instr n))} {b' : Books n}
    (h : Settles { b with live := b.live.set w false, current := b.current.set w none, codes } e b') :
    b.Abandoned w e b' := by
  obtain ⟨r, faults, arrival, hr, -, rfl⟩ := h
  obtain ⟨runtime, rfl, -⟩ := hr.eq
  by_cases hq : b.stage e = .repeating ∧ b.phase ≠ .closed
  · simp only [if_pos hq]
    exact ⟨rfl, rfl, rfl, rfl, if_pos rfl, Or.inl ⟨hq.1, hq.2, _, rfl, rfl⟩⟩
  · simp only [if_neg hq]
    exact ⟨rfl, rfl, rfl, rfl, if_pos rfl, Or.inr ⟨hq, rfl⟩⟩

/-- Hiring adds workers that have no slice and are not retired. -/
theorem Books.Hires.grow {b b' : Books n} (h : b.Hires b') :
    ∃ m, b'.current = b.current ++ List.replicate m none ∧ b'.live = b.live ++ List.replicate m true := by
  induction h with
  | refl => exact ⟨0, by simp⟩
  | worker h ih =>
    obtain ⟨m, hc, hl⟩ := ih
    exact ⟨m + 1, by simp [hc, hireWorker, List.replicate_succ], by simp [hl, hireWorker, List.replicate_succ]⟩
  | watchdog h ih => exact ih

theorem Gear.Refreshes.overrun {x : TimeoutState} (h : g.Refreshes e x) : x.overrun g.clock = g.overrun e := by
  obtain ⟨share, rfl⟩ := h
  exact TimeoutState.refresh_overrun ..

theorem Gear.Refreshes.hardAborted {x : TimeoutState} (h : g.Refreshes e x) :
    x.flags.hardAborted = (g.timeout e).flags.hardAborted := by
  obtain ⟨share, rfl⟩ := h
  exact TimeoutState.refresh_hardAborted ..

/-- How much of a check is left at most when an instruction comes next. -/
@[simp] def Instr.height : Instr n → Nat
  | .call _ => 17
  | .measure _ _ => 16
  | .raise _ _ _ => 15
  | .callHost _ .abortWithTimeout => 14
  | .press _ _ _ => 13
  | .report _ _ _ => 12
  | .writeReport _ _ _ => 11
  | .retire _ => 10
  | .takeAbandoned _ => 9
  | .resetTimer _ _ => 8
  | .account _ _ => 7
  | .settle _ => 6
  | .finishUnload _ => 5
  | .callHost _ .unload => 4
  | .announce _ => 3
  | .decideRespawn _ => 2
  | .vacate _ _ => 1
  | _ => 0

/-- How much is left of a check at most. -/
@[simp] def height (code : List (Instr n)) : Nat := (code.head?.map Instr.height).getD 0

/-- The next instruction of a check leads on, or to its end. -/
theorem Midway.step {i : Instr n} {front next : List (Instr n)} {codes l : List (List (Instr n))}
    (hm : Midway b g w e (i :: front) c k) (hs : Checkable b g w e) (he : i.Effect { c with codes } c' next)
    (hl : i.Leads next) (hd : i.Drive { c with codes } c' k k' next) :
    Midway b g w e (next ++ front) { c' with codes := l } k' ∧ height (next ++ front) < height (i :: front) ∨
      next ++ front = [] ∧ Ladder b g w e { c' with codes := l } k' := by
  generalize hf : i :: front = code at hm
  cases hm with
  | refresh codes₀ =>
    cases hf
    obtain ⟨share, rfl, -⟩ := hd
    cases he
    cases hl
    rw [onTimeout_eq_after]
    exact Or.inl ⟨.measure l _ ⟨share, rfl⟩, by simp⟩
  | measure codes₀ x hx =>
    cases hf
    obtain ⟨rfl, hn⟩ := hd
    cases he
    have ho : ((g.after e x g.interrupted []).timeout e).overrun g.clock = g.overrun e := by
      rw [after_timeout_self, hx.overrun]
    by_cases h : g.rung ≤ (g.overrun e).nanos
    · have hn : next = [.raise w e (g.overrun e)] := by
        rw [hn]
        show (if g.rung ≤ (((g.after e x g.interrupted []).timeout e).overrun g.clock).nanos then
          [Instr.raise w e (((g.after e x g.interrupted []).timeout e).overrun g.clock)] else []) = _
        rw [ho, if_pos h]
      subst hn
      exact Or.inl ⟨.raise l x hx h, by simp⟩
    · have hn : next = [] := by
        rw [hn]
        show (if g.rung ≤ (((g.after e x g.interrupted []).timeout e).overrun g.clock).nanos then
          [Instr.raise w e (((g.after e x g.interrupted []).timeout e).overrun g.clock)] else []) = _
        rw [ho, if_neg h]
      subst hn
      exact Or.inr ⟨rfl, .refresh l x hx (by omega)⟩
  | raise codes₀ x hx h =>
    cases hf
    obtain ⟨rfl, hn⟩ := hd
    cases he
    rw [after_timeout_self, hx.hardAborted] at hn
    rw [after_onTimeout]
    cases hh : (g.timeout e).flags.hardAborted with
    | true =>
      rw [hh, if_pos rfl] at hn
      subst hn
      have hg : g.after e x.hardAbort g.interrupted [] = g.raised e x := by simp [Gear.raised, aborts, hh]
      rw [hg]
      exact Or.inl ⟨.press l x hx h, by simp⟩
    | false =>
      rw [hh, if_neg (by decide)] at hn
      subst hn
      exact Or.inl ⟨.abort l x hx h hh, by simp⟩
  | abort codes₀ x hx h hh =>
    cases hf
    cases hd
    cases he
    cases hl
    have hg : (g.after e x.hardAbort g.interrupted []).deed (.called e .abortWithTimeout) = g.raised e x := by
      rw [after_deed]
      simp [Gear.raised, aborts, hh]
    rw [hg]
    exact Or.inl ⟨.press l x hx h, by simp⟩
  | press codes₀ x hx h =>
    cases hf
    cases he
    have hc : b.current[w]? = some (some e) := hs.current
    have hstep : (g.raised e x).config.timeouts.abortTimeout.nanos = g.rung := rfl
    simp only [Drive, hstep, hc, and_true] at hd
    by_cases h2 : 2 * g.rung ≤ (g.overrun e).nanos
    · rw [if_pos (by omega)] at hd
      obtain ⟨rfl, rfl⟩ := hd
      have hg : ((g.raised e x).interrupt w).deed (.interrupted w) = g.pressed w e x [] := by
        unfold Gear.raised Gear.pressed
        rw [after_interrupt _ _ _ _ _ hs.started, after_deed]
      have h3 : 2 * g.rung ≤ (g.overrun e).nanos - g.rung ↔ 3 * g.rung ≤ (g.overrun e).nanos := by omega
      rw [hg]
      simp only [h3]
      refine Or.inl ?_
      rw [List.append_nil]
      exact ⟨.report l x hx h2, by simp⟩
    · rw [if_neg (by omega)] at hd
      obtain ⟨rfl, rfl⟩ := hd
      exact Or.inr ⟨rfl, .abort l x hx h (by omega)⟩
  | report codes₀ x hx h =>
    cases hf
    cases hd
    cases he
    rcases hl with rfl | ⟨thread, rfl⟩
    · by_cases h3 : 3 * g.rung ≤ (g.overrun e).nanos
      · simp only [if_pos h3]
        exact Or.inl ⟨.retire l x [] hx (Or.inl rfl) h3, by simp⟩
      · simp only [if_neg h3]
        exact Or.inr ⟨rfl, .interrupt l x [] hx (Or.inl rfl) h (by omega)⟩
    · exact Or.inl ⟨.writeReport l x thread hx h, by simp⟩
  | writeReport codes₀ x thread hx h =>
    cases hf
    cases hd
    cases he
    cases hl
    have hg : (g.pressed w e x []).deed (.called e .writeState) = g.pressed w e x [.called e .writeState] := by
      unfold Gear.pressed
      rw [after_deed]
      simp
    rw [hg]
    by_cases h3 : 3 * g.rung ≤ (g.overrun e).nanos
    · simp only [if_pos h3]
      exact Or.inl ⟨.retire l x _ hx (Or.inr rfl) h3, by simp⟩
    · simp only [if_neg h3]
      exact Or.inr ⟨rfl, .interrupt l x _ hx (Or.inr rfl) h (by omega)⟩
  | retire codes₀ x reports hx hr h =>
    cases hf
    have hlive : b.live[w]? = some true := hs.live
    rcases he with ⟨-, rfl, rfl⟩ | ⟨hn, -⟩
    · rcases hd with ⟨-, rfl⟩ | ⟨hn, -⟩
      · exact Or.inl ⟨.take l x reports hx hr h, by simp⟩
      · exact absurd hlive hn
    · exact absurd hlive hn
  | take codes₀ x reports hx hr h =>
    cases hf
    cases hd
    obtain ⟨rfl, ⟨e', he', rfl⟩ | ⟨hn, -⟩⟩ := he
    · obtain rfl : e = e' := Option.some.inj (Option.some.inj (hs.current.symm.trans he'))
      exact Or.inl ⟨.reset l x reports hx hr h, by simp⟩
    · exact absurd hs.current (hn e)
  | reset codes₀ x reports hx hr h =>
    cases hf
    obtain ⟨⟨elapsed, rfl⟩, -, hn⟩ := hd
    obtain ⟨o, rfl⟩ := hn rfl
    cases he
    have hg : (((g.pressed w e x reports).deed (.retired w)).onTimeout e (·.reset)).deed (.timerReset e elapsed) =
        g.abandoned w e x reports elapsed [] := by
      unfold Gear.pressed Gear.abandoned
      rw [after_deed, after_onTimeout, after_deed]
      simp
    rw [hg]
    exact Or.inl ⟨.account l x reports elapsed o hx hr h, by simp⟩
  | account codes₀ x reports elapsed o hx hr h =>
    cases hf
    cases hd
    cases he
    cases hl
    exact Or.inl ⟨.settle l x reports elapsed hx hr h, by simp⟩
  | settle codes₀ x reports elapsed hx hr h =>
    cases hf
    cases hd
    obtain ⟨hsettles, rfl⟩ := he
    have hb : b.Abandoned w e { c' with codes := l } :=
      (Books.Settles.abandoned (b := b) (w := w) hsettles).congr rfl rfl rfl rfl rfl rfl
    refine Or.inl ?_
    split
    · exact ⟨.finishUnload _ x reports elapsed hx hr h hb, by simp⟩
    · exact ⟨.decide _ x reports [] elapsed hx hr h (Or.inl rfl) hb, by simp⟩
  | finishUnload b₁ x reports elapsed hx hr h hb =>
    cases hf
    cases hd
    rcases he with ⟨-, rfl, rfl⟩ | ⟨-, rfl, rfl⟩
    · exact Or.inl ⟨.decide _ x reports [] elapsed hx hr h (Or.inl rfl) (hb.congr rfl rfl rfl rfl rfl rfl), by simp⟩
    · exact Or.inl ⟨.unload _ x reports elapsed hx hr h (hb.congr rfl rfl rfl rfl rfl rfl), by simp⟩
  | unload b₁ x reports elapsed hx hr h hb =>
    cases hf
    cases hd
    obtain ⟨rfl, rfl⟩ := he
    have hg : (g.abandoned w e x reports elapsed []).deed (.called e .unload) =
        g.abandoned w e x reports elapsed [.called e .unload] := by
      unfold Gear.abandoned
      rw [after_deed]
      simp
    rw [hg]
    exact Or.inl ⟨.announce _ x reports elapsed hx hr h (hb.congr rfl rfl rfl rfl rfl rfl), by simp⟩
  | announce b₁ x reports elapsed hx hr h hb =>
    cases hf
    cases hd
    obtain ⟨rfl, rfl⟩ := he
    exact Or.inl ⟨.decide _ x reports _ elapsed hx hr h (Or.inr rfl) (hb.congr rfl rfl rfl rfl rfl rfl), by simp⟩
  | decide b₁ x reports unloads elapsed hx hr h hu hb =>
    cases hf
    cases he
    obtain ⟨rfl, respawn, rfl, hn⟩ := hd
    exact Or.inl ⟨.vacate _ respawn x reports unloads elapsed hx hr h hu (hb.congr rfl rfl rfl rfl rfl rfl) hn, by simp⟩
  | vacate b₁ respawn x reports unloads elapsed hx hr h hu hb hn =>
    cases hf
    obtain ⟨hh, rfl⟩ := he
    obtain ⟨slot, hseat, hslot⟩ := hs.slot
    have hsame : ∀ slot' : Nat, (g.abandoned w e x reports elapsed unloads).seats[w]? = some slot' → slot' = slot :=
      fun slot' h' => Option.some.inj (h'.symm.trans hseat)
    obtain ⟨m, hcur, hlive⟩ := hh.grow
    obtain ⟨current, live, codes₁, rfl⟩ := hh.eq
    have hlive : live = c.live ++ List.replicate m true := hlive
    have hcur : current = c.current ++ List.replicate m none := hcur
    rcases hd with ⟨⟨hnone, -⟩ | ⟨slot', hseat', hslot', -⟩ | ⟨slot', hseat', -, rfl, rfl⟩, hl'⟩ |
      ⟨slot', hseat', -, rfl, rfl, hl'⟩
    · exact absurd (hnone.symm.trans hseat) (by simp)
    · exact absurd (hsame slot' hseat' ▸ hslot) hslot'
    · obtain rfl := hsame slot' hseat'
      have hl' : live = c.live := hl'
      have hm : m = 0 := by simpa using hlive.symm.trans hl'
      refine Or.inr ⟨rfl, .leave _ x reports unloads elapsed slot' hx hr h hu (hb.congr rfl hl' ?_ rfl rfl rfl) ?_ hseat hslot⟩
      · simp [hcur, hm]
      · exact fun hrespawns => absurd (hn.2 hrespawns) (by decide)
    · obtain rfl := hsame slot' hseat'
      have hl' : live = c.live ++ [true] := hl'
      have hm : m = 1 := by
        have := congrArg List.length (hlive.symm.trans hl')
        simpa using this
      subst hm hcur hlive
      exact Or.inr ⟨rfl, .replace c l x reports unloads elapsed slot' hx hr h hu hb (hn.1 rfl) hseat hslot⟩

/-- An observer tears a check down only after the worker was retired. -/
theorem Midway.tear {e' : Fin n} {o : Metrics.Observation} {front : List (Instr n)} {l : List (List (Instr n))}
    (hm : Midway b g w e (.account e' o :: front) c k) (hf : (k.host e').sink = .host true) :
    (g.host e).sink = .host true ∧ 3 * g.rung ≤ (g.overrun e).nanos ∧ Ladder b g w e { c with codes := l } k := by
  generalize hfront : Instr.account e' o :: front = code at hm
  cases hm with
  | account codes₀ x reports elapsed o' hx hr h =>
    cases hfront
    exact ⟨hf, h, .tear l x reports elapsed hx hr h hf⟩
  | _ => cases hfront

/-- What a check begins with. -/
theorem Midway.head {front : List (Instr n)} (hm : Midway b g w e front c k) :
    ∃ i rest, front = i :: rest ∧ 0 < i.height ∧ ∀ (s : Pool n) (t : ThreadId), s.mustWait t i = false := by
  cases hm <;> exact ⟨_, _, rfl, by simp, fun _ _ => rfl⟩

end FairShare.Scheduler
