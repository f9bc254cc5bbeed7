import FairShare.Proofs.Level
import FairShare.Proofs.Resting

/-!
# The outset of a slice

A worker starts the clock of a slice on a timeout that is as new, and what is up after that went up because of the time
that passed since. What earlier slices left, of the executor or of another one on the worker, does not count.
-/

namespace FairShare

namespace TimeoutState

/-- Whatever is up went up because of the time that passed since a moment. -/
structure Since (x : TimeoutState) (minPeriod : Duration) (since now : Instant) : Prop where
  present : since ≤ now
  armed : since ≤ x.clock.armedAt
  started : ∀ start, x.clock.start = some start → since ≤ start
  budget : x.clock.budget = x.config.timeout
  paused : x.flags.paused = true → since + minPeriod.nanos ≤ now
  softAborted : x.flags.softAborted = true → since + x.config.timeout.nanos ≤ now
  hardAborted : x.flags.hardAborted = true → since + x.config.timeout.nanos + x.config.abortTimeout.nanos ≤ now

variable {x : TimeoutState} {minPeriod : Duration} {since now : Instant}

/-- What has passed since a moment that is not before another one has passed since that too. -/
theorem add_le_of_le_sub {since start now d : Nat} (hle : since ≤ start) (hnow : since ≤ now) (h : d ≤ now - start) :
    since + d ≤ now := by
  omega

/-- A clock that is started on a timeout that is as new. -/
theorem Fresh.startClock (h : x.Fresh) (minPeriod : Duration) (now : Instant) :
    (x.startClock now).Since minPeriod now now where
  present := Nat.le_refl now
  armed := Nat.le_refl now
  started := by
    rintro start hs
    exact Nat.le_of_eq (Option.some.inj hs)
  budget := h.budget
  paused := by simp [h.flags]
  softAborted := by simp [h.flags]
  hardAborted := by simp [h.flags]

namespace Since

theorem later (h : x.Since minPeriod since now) {later : Instant} (hle : now ≤ later) : x.Since minPeriod since later where
  present := Nat.le_trans h.present hle
  armed := h.armed
  started := h.started
  budget := h.budget
  paused hp := Nat.le_trans (h.paused hp) hle
  softAborted hs := Nat.le_trans (h.softAborted hs) hle
  hardAborted hh := Nat.le_trans (h.hardAborted hh) hle

theorem reset (h : x.Since minPeriod since now) : x.reset.Since minPeriod since now where
  present := h.present
  armed := h.armed
  started := by simp
  budget := rfl
  paused := by simp
  softAborted := by simp
  hardAborted := by simp

theorem startClock (h : x.Since minPeriod since now) : (x.startClock now).Since minPeriod since now where
  present := h.present
  armed := h.present
  started := by
    rintro start hs
    exact Option.some.inj hs ▸ h.present
  budget := h.budget
  paused := h.paused
  softAborted := h.softAborted
  hardAborted := h.hardAborted

/-- A hard abort that is due raises nothing early. -/
theorem hardAbort (h : x.Since minPeriod since now)
    (hlate : since + x.config.timeout.nanos + x.config.abortTimeout.nanos ≤ now) : x.hardAbort.Since minPeriod since now where
  present := h.present
  armed := h.armed
  started := h.started
  budget := h.budget
  paused := h.paused
  softAborted _ := Nat.le_trans (Nat.le_add_right ..) hlate
  hardAborted _ := hlate

theorem refresh (h : x.Since minPeriod since now) (share : Share)
    (hperiod : share.contended = true → minPeriod.nanos ≤ share.period.nanos) :
    (x.refresh share now).Since minPeriod since now := by
  cases hs : x.clock.start with
  | none => rwa [refresh_of_none _ _ _ hs]
  | some start =>
    have hflags := x.refresh_flags share now hs
    refine ⟨h.present, h.armed, h.started, h.budget, fun hp => ?_, fun hsoft => ?_, fun hh => ?_⟩
    · rw [hflags] at hp
      simp only [Bool.or_eq_true, Bool.and_eq_true, decide_eq_true_eq] at hp
      rcases hp with hp | ⟨hc, hp⟩
      · exact h.paused hp
      · exact add_le_of_le_sub (h.started start hs) h.present (Nat.le_trans (hperiod hc) hp)
    · rw [hflags] at hsoft
      simp only [Bool.or_eq_true, decide_eq_true_eq, h.budget] at hsoft
      rcases hsoft with hsoft | hle
      · exact h.softAborted hsoft
      · exact add_le_of_le_sub h.armed h.present hle
    · rw [refresh_hardAborted] at hh
      exact h.hardAborted hh

/-- An overrun is not longer than the time that passed. -/
theorem overrun (h : x.Since minPeriod since now) (hpos : 0 < (x.overrun now).nanos) :
    since + x.config.timeout.nanos + (x.overrun now).nanos ≤ now := by
  have hle : (x.overrun now).nanos ≤ (-x.clock.remaining now).toNat := Nat.min_le_left _ _
  have hpast : x.config.timeout.nanos + (x.overrun now).nanos ≤ now - x.clock.armedAt := by
    unfold SliceClock.remaining at hle
    rw [h.budget] at hle
    split at hle <;> omega
  rw [Nat.add_assoc]
  exact add_le_of_le_sub h.armed h.present hpast

theorem executionTime_le (h : x.Since minPeriod since now) : x.executionTime now ≤ now - since := by
  unfold executionTime
  split
  · next start hs => exact Nat.sub_le_sub_left (h.started start hs) now
  · exact Nat.zero_le _

theorem remaining_le (h : x.Since minPeriod since now) : (x.remainingTime now).nanos ≤ clampWord x.config.timeout.nanos := by
  refine clampWord_mono ?_
  unfold SliceClock.remaining
  rw [h.budget]
  split <;> omega

theorem le_remaining (h : x.Since minPeriod since now) :
    clampWord (x.config.timeout.nanos - (now - since)) ≤ (x.remainingTime now).nanos := by
  refine clampWord_mono ?_
  have hle : x.config.timeout.nanos - (now - since) ≤ x.config.timeout.nanos - (now - x.clock.armedAt) :=
    Nat.sub_le_sub_left (Nat.sub_le_sub_left h.armed now) _
  unfold SliceClock.remaining
  rw [h.budget]
  split <;> omega

end Since

end TimeoutState

namespace Scheduler

variable {n : Nat}

namespace Books

open Instr

variable {b b' : Books n} {g g' : Gear n} {a : Action n} {e : Fin n}

theorem clock_le_goes (hg : Goes b g a b' g') : g.clock ≤ g'.clock := by
  cases hg with
  | advance nanos => exact Nat.le_add_right ..
  | step t i rest next b' g' ht hw he hl hd => cases outcome hw he hl hd <;> exact Nat.le_refl _
  | _ => exact Nat.le_refl _

theorem minPeriod_le_period (g : Gear n) (active : Nat) : g.config.minPeriod.nanos ≤ (g.period active).nanos := by
  unfold Gear.period Duration.max
  split <;> omega

/-- An interrupt goes up because a worker still runs what was measured. -/
theorem interrupted_goes (hg : Goes b g a b' g') {w : WorkerId} (h : g'.interrupted[w]? = some true) :
    g.interrupted[w]? = some true ∨ ∃ (t : ThreadId) (e : Fin n) (o : Duration) (rest : List (Instr n)),
      b.codes[t]? = some (.press w e o :: rest) ∧ 2 * g.rung ≤ o.nanos ∧ b.current[w]? = some (some e) := by
  cases hg with
  | step t i rest next b' g' ht hw he hl hd =>
    rcases (outcome hw he hl hd).interrupted h with ⟨hup, -⟩ | ⟨e, o, rfl, hlate, hcur⟩
    · exact Or.inl hup
    · exact Or.inr ⟨t, e, o, rest, ht, hlate, hcur⟩
  | _ => exact Or.inl h

/-- What is up for the slice of an executor on a worker went up because of the time that passed since its clock was
started. -/
structure Outset (b : Books n) (g : Gear n) (w : WorkerId) (e : Fin n) (since : Instant) : Prop where
  timeout : (g.timeout e).Since g.config.minPeriod since g.clock
  /-- Nobody is about to escalate for more than that time. -/
  due : ∀ w' o, .raise w' e o ∈ b.todo ∨ .press w' e o ∈ b.todo →
    g.rung ≤ o.nanos ∧ since + g.config.timeouts.timeout.nanos + o.nanos ≤ g.clock
  interrupt : .callWork w e ∈ b.todo → g.interrupted[w]? = some true →
    since + g.config.timeouts.timeout.nanos + 2 * g.rung ≤ g.clock

namespace Outset

variable {w : WorkerId} {since : Instant}

theorem timeout_goes (h : b.Outset g w e since) (hset : (g.timeout e).config = g.config.timeouts)
    (hcalm : b.Undisturbed e a) (hg : Goes b g a b' g') : (g'.timeout e).Since g'.config.minPeriod since g'.clock := by
  rw [Pool.config_goes hg]
  refine TimeoutState.Since.later ?_ (clock_le_goes hg)
  rcases Books.timeout_goes hg e with hkeep | ⟨t, i, rest, ha, ht, hr⟩
  · rw [hkeep]
    exact h.timeout
  · obtain ⟨harm, habort, -⟩ := hcalm t i rest ha ht
    generalize g'.timeout e = x at hr
    cases hr with
    | keep => exact h.timeout
    | refresh share hshare =>
      refine h.timeout.refresh share fun hc => ?_
      rw [(hshare hc).2]
      exact minPeriod_le_period g _
    | arm budget => exact absurd rfl (harm budget)
    | hardAbort => exact absurd rfl habort
    | raise w' o =>
      obtain ⟨hlate, hdue⟩ := h.due w' o (Or.inl (mem_todo ht))
      refine h.timeout.hardAbort ?_
      rw [hset]
      exact Nat.le_trans (Nat.add_le_add_left hlate _) hdue
    | start => exact h.timeout.startClock
    | clear => exact h.timeout.reset
    | reset slice => exact h.timeout.reset

theorem due_goes (h : b.Outset g w e since) (hset : (g.timeout e).config = g.config.timeouts) (hrung : 0 < g.rung)
    (hg : Goes b g a b' g') {w' : WorkerId} {o : Duration} (hx : .raise w' e o ∈ b'.todo ∨ .press w' e o ∈ b'.todo) :
    g.rung ≤ o.nanos ∧ since + g.config.timeouts.timeout.nanos + o.nanos ≤ g.clock := by
  have hbegins : ∀ x : Instr n, (∃ code, Begins code ∧ x ∈ code) → x ≠ .raise w' e o ∧ x ≠ .press w' e o := by
    rintro x ⟨code, hb, hx⟩
    rcases hb with ⟨v, rfl⟩ | rfl <;> simp at hx <;> rcases hx with rfl | rfl <;> simp
  rcases hx with hx | hx
  · rcases mem_todo_goes hg hx with hold | hb | ⟨c, hc⟩ | ⟨v, e', hy⟩ | ⟨t, i, rest, next, c, ht, hy, hmem, hout, -⟩
    · exact h.due w' o (Or.inl hold)
    · exact absurd rfl (hbegins _ hb).1
    · cases hc
    · cases hy
    · cases hy
      cases hout with
      | overrun _ _ o' ho hlate =>
        obtain rfl : o = o' := by simpa using hmem
        refine ⟨hlate, ?_⟩
        subst ho
        have hpast := h.timeout.overrun (Nat.lt_of_lt_of_le hrung hlate)
        rwa [hset] at hpast
      | inTime => simp at hmem
      | take _ _ _ _ _ _ hi => rcases hi with ⟨hi, -⟩ | ⟨hi, -⟩ <;> cases hi
      | close _ _ _ _ _ _ hi => rcases hi with ⟨hi, -⟩ | ⟨hi, -⟩ <;> cases hi
      | await _ _ _ _ _ _ hi => rcases hi with ⟨hi, -⟩ | ⟨hi, -⟩ <;> cases hi
  · rcases mem_todo_goes hg hx with hold | hb | ⟨c, hc⟩ | ⟨v, e', hy⟩ | ⟨t, i, rest, next, c, ht, hy, -, -, -⟩
    · exact h.due w' o (Or.inr hold)
    · exact absurd rfl (hbegins _ hb).2
    · cases hc
    · cases hy
    · cases hy
      exact h.due w' o (Or.inl (mem_todo ht))

theorem interrupt_goes (h : b.Outset g w e since) (haimed : b.Aimed g) (ho : b.Orderly) (hg : Goes b g a b' g')
    (hx : .callWork w e ∈ b'.todo) (hup : g'.interrupted[w]? = some true) :
    since + g.config.timeouts.timeout.nanos + 2 * g.rung ≤ g.clock := by
  have hold : .callWork w e ∈ b.todo ∨ ∃ code ∈ b.codes, Opening w e true code := by
    rcases mem_todo_goes hg hx with hold | ⟨code, hb, hmem⟩ | ⟨c, hc⟩ | ⟨v, e', hy⟩ | ⟨t, i, rest, next, c, ht, hy, -, -, -⟩
    · exact Or.inl hold
    · rcases hb with ⟨v, rfl⟩ | rfl <;> simp at hmem
    · cases hc
    · cases hy
    · cases hy
      obtain ⟨begun, hopen⟩ := haimed.opening _ (List.mem_of_getElem? ht) _ (List.mem_cons_self ..) w e (by simp)
      refine Or.inr ⟨_, List.mem_of_getElem? ht, ?_⟩
      cases hopen
      exact .publish _
  rcases hold with hold | ⟨code, hc, hopen⟩
  · rcases interrupted_goes hg hup with hbefore | ⟨t, e', o, rest, ht, hlate, hcur⟩
    · exact h.interrupt hold hbefore
    · -- The worker runs what it is about to work on.
      have hclose : 0 < b.todo.countP (closes w e) :=
        Nat.lt_of_lt_of_le (List.countP_pos_iff.2 ⟨_, hold, by simp⟩) (ho.works_le w e)
      obtain rfl := closes_unique (ho.one_slice w) hclose (ho.staffed.published w e' hcur)
      obtain ⟨-, hdue⟩ := h.due w o (Or.inr (mem_todo ht))
      exact Nat.le_trans (Nat.add_le_add_left hlate _) hdue
  · rcases interrupted_goes hg hup with hbefore | ⟨t, e', o, rest, ht, hlate, hcur⟩
    · exact absurd hbefore (haimed.calm code hc w e true hopen (by cases hopen <;> simp))
    · exact absurd hcur (ho.current_of_opening hc hopen)

theorem goes (h : b.Outset g w e since) (hset : (g.timeout e).config = g.config.timeouts) (hrung : 0 < g.rung)
    (haimed : b.Aimed g) (ho : b.Orderly) (hcalm : b.Undisturbed e a) (hg : Goes b g a b' g') :
    b'.Outset g' w e since := by
  have hconfig := Pool.config_goes hg
  have hclock := clock_le_goes hg
  have hrung' : g'.rung = g.rung := by
    unfold Gear.rung
    rw [hconfig]
  refine ⟨h.timeout_goes hset hcalm hg, fun w' o hx => ?_, fun hx hup => ?_⟩
  · obtain ⟨hlate, hdue⟩ := h.due_goes hset hrung hg hx
    rw [hrung', hconfig]
    exact ⟨hlate, Nat.le_trans hdue hclock⟩
  · rw [hrung', hconfig]
    exact Nat.le_trans (h.interrupt_goes haimed ho hg hx hup) hclock

end Outset

/-- A thread has started the clock of a slice, and has not begun to work on it. -/
def Begun (b : Books n) (t : ThreadId) (w : WorkerId) (e : Fin n) : Prop :=
  ∃ code, b.codes[t]? = some code ∧ (Opening w e true code ∨ .callWork w e ∈ code)

theorem begun_before (haimed : b.Aimed g) (hf : b.Fitted) {t : ThreadId} {i : Instr n} {rest next : List (Instr n)}
    {w : WorkerId} (ht : b.codes[t]? = some (i :: rest)) (hl : i.Leads next)
    (h : Opening w e true (next ++ rest) ∨ .callWork w e ∈ next ++ rest) :
    b.Begun t w e ∨ i = .call (.startTimer e) ∧ Opening w e false (i :: rest) := by
  rcases h with hopen | hmem
  · rcases haimed.opening_before hf ht hl hopen with ⟨-, hcode⟩ | ⟨begun, hbefore, -, hstart⟩
    · rw [hcode] at hopen
      cases hopen
    · cases begun with
      | true => exact Or.inl ⟨_, ht, Or.inl hbefore⟩
      | false => exact Or.inr ⟨(hstart rfl).resolve_left (by simp), hbefore⟩
  · refine Or.inl ⟨_, ht, ?_⟩
    rcases List.mem_append.1 hmem with hmem | hmem
    · cases hl.yields hmem
      obtain ⟨begun, hopen⟩ := haimed.opening _ (List.mem_of_getElem? ht) _ (List.mem_cons_self ..) w e (by simp)
      cases hopen
      exact Or.inl (.publish _)
    · exact Or.inr (List.mem_cons_of_mem _ hmem)

/-- The slice that was started comes to its work. -/
theorem Begun.toWork {t : ThreadId} {w : WorkerId} (h : b.Begun t w e) :
    ((b.codes[t]?).getD []).any (Instr.toWork w e) = true := by
  obtain ⟨code, hcode, h⟩ := h
  rw [hcode, Option.getD_some, List.any_eq_true]
  rcases h with hopen | hmem
  · obtain ⟨x, hx, hp⟩ := hopen.prepares
    refine ⟨x, hx, ?_⟩
    rcases eq_of_prepares hp with rfl | ⟨a, rfl⟩ <;> simp
  · exact ⟨_, hmem, by simp⟩

/-- A thread starts the clock of a slice before it begins to work on it. -/
theorem Begun.before {t : ThreadId} {w : WorkerId} (h : b'.Begun t w e) (haimed : b.Aimed g) (hf : b.Fitted)
    (hg : Goes b g a b' g') : b.Begun t w e ∨ ∃ rest, a = .step t ∧ b.codes[t]? = some (.call (.startTimer e) :: rest) ∧
      Opening w e false (.call (.startTimer e) :: rest) ∧ b'.current = b.current ∧
      g' = g.onTimeout e (·.startClock g.clock) := by
  obtain ⟨code, hcode, h⟩ := h
  cases hg with
  | rest => exact Or.inl ⟨code, hcode, h⟩
  | advance => exact Or.inl ⟨code, hcode, h⟩
  | arrive c =>
    have hcode : (b.codes ++ [[.call c]])[t]? = some code := hcode
    rw [List.getElem?_append] at hcode
    split at hcode
    · exact Or.inl ⟨code, hcode, h⟩
    · obtain rfl := List.mem_singleton.1 (List.mem_of_getElem? hcode)
      rcases h with hopen | hmem
      · cases hopen
      · simp at hmem
  | perform t' w' e' rest next a ht ha =>
    by_cases hne : t' = t
    · subst hne
      have hcode : (b.codes.set t' (next ++ rest))[t']? = some code := hcode
      rw [List.getElem?_set_self (List.getElem?_eq_some_iff.1 ht).1] at hcode
      obtain rfl := Option.some.inj hcode
      refine (begun_before haimed hf ht ha.leads h).imp_right ?_
      rintro ⟨hi, -⟩
      cases hi
    · exact Or.inl ⟨code, (List.getElem?_set_ne hne).symm.trans hcode, h⟩
  | step t' i rest next b' g' ht hw he hl hd =>
    rcases codes_after ht he hcode with ⟨rfl, rfl⟩ | ⟨-, hold⟩ | hbegins
    · refine (begun_before haimed hf ht hl h).imp_right ?_
      rintro ⟨rfl, hopen⟩
      cases he
      cases hd
      exact ⟨rest, rfl, ht, hopen, rfl, rfl⟩
    · exact Or.inl ⟨code, hold, h⟩
    · rcases h with hopen | hmem
      · obtain ⟨x, hx, hp⟩ := hopen.prepares
        rw [hbegins.not_prepares hx] at hp
        cases hp
      · rcases hbegins with ⟨v, rfl⟩ | rfl <;> simp at hmem
  | tear t' e' o rest ht hfail =>
    by_cases hne : t' = t
    · subst hne
      have hcode : (b.codes.set t' [])[t']? = some code := hcode
      rw [List.getElem?_set_self (List.getElem?_eq_some_iff.1 ht).1] at hcode
      obtain rfl := Option.some.inj hcode
      rcases h with hopen | hmem
      · cases hopen
      · cases hmem
    · exact Or.inl ⟨code, (List.getElem?_set_ne hne).symm.trans hcode, h⟩

/-- Nothing is up when the clock of a slice is started. -/
theorem Rested.outset (h : b.Rested g e) (haimed : b.Aimed g) (haimed' : b'.Aimed g') (hp : (b.account e).Placed)
    {t : ThreadId} {w : WorkerId} {rest : List (Instr n)} (ht : b.codes[t]? = some (.call (.startTimer e) :: rest))
    (hopen : Opening w e false (.call (.startTimer e) :: rest)) (hcur : b'.current = b.current)
    (hg : g' = g.onTimeout e (·.startClock g.clock)) : b'.Outset g' w e g.clock := by
  have hmem := List.mem_of_getElem? ht
  have hrest : b.Resting e := .opening _ hmem w hopen
  constructor
  case timeout =>
    subst hg
    show (if e = e then (g.timeout e).startClock g.clock else g.timeout e).Since _ _ _
    rw [if_pos rfl]
    exact (h.fresh hrest).startClock _ _
  case due =>
    intro w' o hx
    have haims : 0 < b'.todo.countP (aims w' e) := by
      rcases hx with hx | hx <;> exact List.countP_pos_iff.2 ⟨_, hx, by simp⟩
    exact absurd (hcur ▸ haimed'.current w' e haims) (hrest.not_current hp w')
  case interrupt =>
    intro _ hup
    subst hg
    refine absurd hup (haimed.calm _ hmem w e false hopen ?_)
    cases hopen
    simp

end Books

namespace Pool

open Instr

variable {s : Pool n} {a : Action n} {t : ThreadId} {w : WorkerId} {e : Fin n}

/-- A run goes from the moment at which a thread starts the clock of a slice towards the work of that slice. -/
structure Starts (s : Pool n) (l opening : List (Action n)) (t : ThreadId) (w : WorkerId) (e : Fin n) : Prop where
  start : ∃ rest, (s.run opening).code t = .call (.startTimer e) :: .noteAllocated w e :: rest
  /-- From then on the thread is on its way to the work. -/
  onward : ∃ last, l = opening ++ .step t :: last ∧ ∀ middle more, last = middle ++ more →
    ((s.run (opening ++ .step t :: middle)).code t).any (toWork w e) = true

theorem Starts.concat {l opening : List (Action n)} (h : s.Starts l opening t w e)
    (hnow : ((s.run (l ++ [a])).code t).any (toWork w e) = true) : s.Starts (l ++ [a]) opening t w e := by
  obtain ⟨hstart, last, rfl, honward⟩ := h
  refine ⟨hstart, last ++ [a], by simp, fun middle more hsplit => ?_⟩
  rcases List.eq_nil_or_concat more with rfl | ⟨more', x, rfl⟩
  · rw [List.append_nil] at hsplit
    subst hsplit
    simpa using hnow
  · rw [List.concat_eq_append, ← List.append_assoc] at hsplit
    exact honward middle more' (List.append_inj' hsplit rfl).1

/-- A slice is started before its work begins, and nothing is up for it then. -/
theorem Poised.started (h : s.Poised e) (hrung : 0 < s.rung) (hbegun : ¬s.books.Begun t w e) {l : List (Action n)}
    (hl : s.Along (fun s a => s.apart a = true ∧ s.disturbs e a = false) l) :
    (s.run l).Poised e ∧ ((s.run l).books.Begun t w e → ∃ opening, s.Starts l opening t w e ∧
      (s.run l).books.Outset (s.run l).gear w e (s.run opening).clock) := by
  induction l using List.reverseRecOn with
  | nil => exact ⟨h, fun hb => absurd hb hbegun⟩
  | append_singleton l a ih =>
    obtain ⟨hl, ⟨hapart, hcalm⟩, -⟩ := along_append.1 hl
    obtain ⟨hbefore, hstarted⟩ := ih hl
    have hafter := hbefore.act hapart hcalm
    have hrun : s.run (l ++ [a]) = (s.run l).act a := run_append s l [a]
    have hg := act_goes (s.run l) a
    rw [hrun]
    refine ⟨hafter, fun hb => ?_⟩
    have hwork : ((s.run (l ++ [a])).code t).any (toWork w e) = true := by
      rw [hrun, code_eq]
      exact hb.toWork
    rcases hb.before hbefore.aimed hbefore.fitted hg with hold | ⟨rest, rfl, ht, hopen, hcur, hgear⟩
    · obtain ⟨opening, hstarts, hout⟩ := hstarted hold
      have hrung : 0 < (s.run l).gear.rung := by
        show 0 < (s.run l).rung
        unfold rung
        rw [run_config]
        exact hrung
      have hcalm := books_undisturbed hcalm hbefore.aimed
      exact ⟨opening, hstarts.concat hwork, hout.goes hbefore.rested.settings hrung hbefore.aimed hbefore.orderly hcalm hg⟩
    · refine ⟨l, ⟨⟨[.nextSlice w], ?_⟩, [], rfl, fun middle more hsplit => ?_⟩, ?_⟩
      · rw [code_eq, ht]
        cases hopen
        rfl
      · obtain ⟨rfl, -⟩ := List.append_eq_nil_iff.1 hsplit.symm
        exact hwork
      · exact hbefore.rested.outset hbefore.aimed hafter.aimed (hbefore.placed e) ht hopen hcur hgear

/-- What is up when the work of an executor begins on a worker went up because of the time that passed since the clock
of the slice was started. -/
structure StartsClean (s : Pool n) (w : WorkerId) (e : Fin n) (since : Instant) : Prop where
  present : since ≤ s.clock
  paused : (s.flags e).paused = true → since + s.config.minPeriod.nanos ≤ s.clock
  softAborted : (s.flags e).softAborted = true → since + s.config.timeouts.timeout.nanos ≤ s.clock
  hardAborted : (s.flags e).hardAborted = true → since + s.config.timeouts.timeout.nanos + s.rung ≤ s.clock
  interrupted : s.interrupted w = true → since + s.config.timeouts.timeout.nanos + 2 * s.rung ≤ s.clock
  /-- No time was lost before the start, and none was gained. -/
  remaining : clampWord (s.config.timeouts.timeout.nanos - (s.clock - since)) ≤
      ((s.executor e).timeout.remainingTime s.clock).nanos ∧
    ((s.executor e).timeout.remainingTime s.clock).nanos ≤ clampWord s.config.timeouts.timeout.nanos
  executionTime : (s.executor e).timeout.executionTime s.clock ≤ s.clock - since
  /-- If no time has passed, nothing is up and nothing is used up. -/
  atOnce : s.clock = since → s.flags e = {} ∧ s.interrupted w = false ∧
    (s.executor e).timeout.remainingTime s.clock = .ofClamped s.config.timeouts.timeout.nanos ∧
    (s.executor e).timeout.executionTime s.clock = 0

theorem budget_pos {config : SchedulerConfig} (h : config.validate = .ok ()) : 0 < config.timeouts.timeout.nanos := by
  refine Nat.pos_of_ne_zero fun hz => ?_
  have hfault : config.timeouts.validate = .error .zeroTimeout := if_pos (by simp [Duration.isZero, hz])
  unfold SchedulerConfig.validate at h
  rw [hfault] at h
  split_ifs at h

theorem startsClean_of_outset {since : Instant} (h : s.books.Outset s.gear w e since)
    (hset : (s.gear.timeout e).config = s.gear.config.timeouts) (hc : s.config.validate = .ok ())
    (hwork : .callWork w e ∈ s.books.todo) : s.StartsClean w e since := by
  have hset : (s.executor e).timeout.config = s.config.timeouts := hset
  have ht : (s.executor e).timeout.Since s.config.minPeriod since s.clock := h.timeout
  have hup : s.interrupted w = true → since + s.config.timeouts.timeout.nanos + 2 * s.rung ≤ s.clock := by
    intro hw
    refine h.interrupt hwork ?_
    rw [interrupted_eq] at hw
    cases hi : s.gear.interrupted[w]? with
    | none => simp [hi] at hw
    | some up => simpa [hi] using hw
  have hle := ht.le_remaining
  have hge := ht.remaining_le
  have hsoft := ht.softAborted
  have hhard := ht.hardAborted
  rw [hset] at hle hge hsoft hhard
  refine ⟨ht.present, ht.paused, hsoft, hhard, hup, ⟨hle, hge⟩, ht.executionTime_le, fun hnow => ?_⟩
  obtain ⟨hmin, -⟩ := SchedulerConfig.periods_of_valid hc
  have hbudget := budget_pos hc
  have hnot : ∀ {d : Nat}, 0 < d → ¬since + d ≤ s.clock := by
    intro d hd hle
    rw [hnow] at hle
    exact Nat.not_le_of_lt (Nat.lt_add_of_pos_right hd) hle
  refine ⟨?_, ?_, ?_, ?_⟩
  · refine Flags.ext ?_ ?_ ?_
    · exact Bool.eq_false_iff.2 fun hp => hnot hmin (ht.paused hp)
    · exact Bool.eq_false_iff.2 fun hp => hnot hbudget (hsoft hp)
    · exact Bool.eq_false_iff.2 fun hp => hnot hbudget (Nat.le_trans (Nat.le_add_right ..) (hhard hp))
  · exact Bool.eq_false_iff.2 fun hp => hnot hbudget (Nat.le_trans (Nat.le_add_right ..) (hup hp))
  · rw [hnow, Nat.sub_self, Nat.sub_zero] at hle
    rw [hnow] at hge
    rw [hnow]
    exact Duration.ext (Nat.le_antisymm hge hle)
  · have hexec := ht.executionTime_le
    rw [hnow, Nat.sub_self] at hexec
    rw [hnow]
    exact Nat.eq_zero_of_le_zero hexec

/-- The work of an executor begins with nothing up but for the time that passed since the worker started the clock of the
slice, if nobody has disturbed the executor since its previous slice ended, whatever happened before. -/
theorem run_startsClean (config : SchedulerConfig) (hc : config.validate = .ok ()) (context : Metrics.Context)
    (log : LogFilter) (hosts : Vector Host n) {before after : List (Action n)} {rest : List (Instr n)}
    (hapart : (create config context log hosts).Along (fun s a => s.apart a) (before ++ after))
    (hended : before = [] ∨ ∃ earlier a, before = earlier ++ [a] ∧
      ((create config context log hosts).run earlier).ends e a = true)
    (hcalm : ((create config context log hosts).run before).Along (fun s a => s.disturbs e a = false) after)
    (hlater : .callWork w e ∉ ((create config context log hosts).run before).code t)
    (hwork : ((create config context log hosts).run (before ++ after)).code t = .callWork w e :: rest) :
    ∃ opening, ((create config context log hosts).run before).Starts after opening t w e ∧
      ((create config context log hosts).run (before ++ after)).StartsClean w e
        ((create config context log hosts).run (before ++ opening)).clock := by
  obtain ⟨hbefore, hafter⟩ := along_append.1 hapart
  obtain ⟨hpoised, hrest⟩ := run_poised config context log hosts hbefore hended
  have hconfig : ∀ l, ((create config context log hosts).run l).config = config := run_config _
  have hbegun : ¬((create config context log hosts).run before).books.Begun t w e := by
    rintro ⟨code, ht, hopen | hmem⟩
    · exact hrest.not_begun (hpoised.placed e) (List.mem_of_getElem? ht) hopen
    · rw [code_eq, ht] at hlater
      exact hlater hmem
  have hrung : 0 < ((create config context log hosts).run before).rung := by
    unfold rung
    rw [hconfig]
    exact rung_pos hc
  obtain ⟨hnow, hstarted⟩ := hpoised.started (t := t) (w := w) hrung hbegun (along_and hafter hcalm)
  rw [run_append] at hwork ⊢
  have ht := codes_of_code hwork
  obtain ⟨opening, hstarts, hout⟩ := hstarted ⟨_, ht, Or.inr (List.mem_cons_self ..)⟩
  refine ⟨opening, hstarts, ?_⟩
  rw [run_append _ before opening]
  refine startsClean_of_outset hout hnow.rested.settings ?_ (Books.mem_todo ht)
  rw [← run_append, hconfig]
  exact hc

/-! ## After an abort, and after a start between slices -/

/-- Whether a thread is about to begin the work of an executor on a worker. -/
def aboutToWork (s : Pool n) (t : ThreadId) (w : WorkerId) (e : Fin n) : Bool :=
  match s.code t with
  | .callWork w' e' :: _ => w' = w && e' = e
  | _ => false

theorem code_of_aboutToWork (h : s.aboutToWork t w e = true) : ∃ rest, s.code t = .callWork w e :: rest := by
  unfold aboutToWork at h
  split at h
  · next w' e' rest hcode =>
    obtain ⟨rfl, rfl⟩ : w' = w ∧ e' = e := by simpa using h
    exact ⟨rest, hcode⟩
  · cases h

/-- The work of the executor submits it again and arms a second, and goes on for four. It is aborted and interrupted when
it returns, and the timeout is about to be reset. -/
def aborted : List (Action 1) :=
  begun ++ [.work 2 (.call (.submit only)), .step 2, .work 2 (.call (.arm only (.ofMillis 1000)))] ++ steps 2 2 ++
    steps 1 3 ++ [.advance 4000000000] ++ steps 1 8 ++ [.work 2 (.finish .ok)] ++ steps 2 2

/-- The next slice starts clean, and has the whole budget. -/
theorem startsClean_aborted :
    ({} : SchedulerConfig).validate = .ok () ∧
      lone.Along (fun s a => s.apart a) ((aborted ++ steps 2 1) ++ steps 2 10) ∧
      (lone.run aborted).ends only (.step 2) = true ∧
      (lone.run aborted).flags only = { softAborted := true, hardAborted := true } ∧
      (lone.run aborted).interrupted 0 = true ∧
      (lone.run (aborted ++ steps 2 1)).Along (fun s a => s.disturbs only a = false) (steps 2 10) ∧
      (lone.run ((aborted ++ steps 2 1) ++ steps 2 10)).aboutToWork 2 0 only = true ∧
      ∃ opening, (lone.run (aborted ++ steps 2 1)).Starts (steps 2 10) opening 2 0 only ∧
        (lone.run ((aborted ++ steps 2 1) ++ steps 2 10)).StartsClean 0 only
          (lone.run ((aborted ++ steps 2 1) ++ opening)).clock := by
  have hapart : lone.Along (fun s a => s.apart a) ((aborted ++ steps 2 1) ++ steps 2 10) := by decide +kernel
  have hends : (lone.run aborted).ends only (.step 2) = true := by decide +kernel
  have hcalm : (lone.run (aborted ++ steps 2 1)).Along (fun s a => s.disturbs only a = false) (steps 2 10) := by
    decide +kernel
  have hnone : ((lone.run (aborted ++ steps 2 1)).code 2).all (!works 0 only ·) = true := by decide +kernel
  have hlater : .callWork 0 only ∉ (lone.run (aborted ++ steps 2 1)).code 2 := fun hm => by
    simpa using List.all_eq_true.1 hnone _ hm
  have hwork : (lone.run ((aborted ++ steps 2 1) ++ steps 2 10)).aboutToWork 2 0 only = true := by decide +kernel
  obtain ⟨rest, hcode⟩ := code_of_aboutToWork hwork
  exact ⟨rfl, hapart, hends, by decide +kernel, by decide +kernel, hcalm, hwork,
    run_startsClean {} rfl _ _ _ hapart (Or.inr ⟨aborted, .step 2, rfl, hends⟩) hcalm hlater hcode⟩

/-- The host starts the clock of the executor and refreshes it ten seconds later, before it submits it. -/
def startedBefore : List (Action 1) :=
  .call (.startTimer only) :: steps 0 2 ++ [.advance 10000000000, .call (.refresh only)] ++ steps 1 1 ++
    .call (.submit only) :: steps 2 2 ++ steps 4 9

/-- Ten seconds pass between the start of the clock and the work. -/
def startedLate : List (Action 1) := .call (.submit only) :: steps 0 2 ++ steps 2 6 ++ [.advance 10000000000] ++ steps 2 3

/-- The worker is about to begin the work of the executor that was submitted. -/
def opened : List (Action 1) := .call (.submit only) :: steps 0 2 ++ steps 2 9

/-- The settings with a budget that does not fit a word. -/
def lavish : SchedulerConfig := { timeouts := { timeout := beyondWord } }

/-- A scheduler with these settings. -/
def lavishly : Pool 1 := sole { computer := ⟨0⟩, sink := .nowhere } lavish

/-- Though nobody armed a budget or raised a hard abort, a slice starts with the soft abort up if the host has started
the clock before, or if time passed since the worker started it. A budget that does not fit a word is not told. -/
theorem startsClean_exceptions :
    (lone.Along (fun s a => s.apart a) startedBefore ∧ lone.Along (fun s a => s.rearms only a = false) startedBefore ∧
      (lone.run startedBefore).aboutToWork 4 0 only = true ∧ ((lone.run startedBefore).flags only).softAborted = true) ∧
    (lone.Along (fun s a => s.apart a) startedLate ∧ lone.Along (fun s a => s.disturbs only a = false) startedLate ∧
      (lone.run startedLate).aboutToWork 2 0 only = true ∧ ((lone.run startedLate).flags only).softAborted = true ∧
      ((lone.run startedLate).executor only).timeout.executionTime (lone.run startedLate).clock = 10000000000) ∧
    lavish.validate = .ok () ∧ lavishly.Along (fun s a => s.apart a) opened ∧
      lavishly.Along (fun s a => s.disturbs only a = false) opened ∧
      (lavishly.run opened).aboutToWork 2 0 only = true ∧
      ((lavishly.run opened).executor only).timeout.remainingTime (lavishly.run opened).clock ≠ lavish.timeouts.timeout := by
  decide +kernel

end Pool

end Scheduler

end FairShare
