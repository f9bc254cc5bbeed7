import FairShare.Proofs.Custody
import FairShare.Proofs.Level

/-!
# Fairness

With one worker, executors that keep waiting or running stay close to each other: no two virtual runtimes come further
apart than a slice lasts, or than they were at first. Whoever is taken is the least of those who wait, and nobody else
of them runs then; so it gets ahead of the others by no more than it is charged for in its stay, and whoever is behind
only comes closer by that.
-/

namespace FairShare.Scheduler

variable {n : Nat}

theorem clampWord_add_le (a b : Nat) : clampWord (a + b) ≤ clampWord a + b := by
  unfold clampWord
  omega

namespace Meter

variable {m m' : Meter n} {e : Fin n} {stage : Fin n → Stage}

/-- Whoever runs is charged up to the present, or not at all. -/
theorem Ticks.chargedAt (h : m.Ticks stage m') (he : e ∈ m.running) :
    m'.chargedAt e = m.now ∨ m'.chargedAt e = m.chargedAt e ∧ m'.runtime e = m.runtime e := by
  cases h with
  | enter e' hq hr => exact Or.inl (by simp [he])
  | take w skipped head rest hq hdone =>
    by_cases heq : e = head.executor
    · exact Or.inl (if_pos heq)
    · exact Or.inr ⟨if_neg heq, rfl⟩
  | leave e' hr => exact Or.inl (by rw [leave_chargedAt, if_pos ((mem_leaving hr).2 he)])
  | requeue e' hr => exact Or.inl (by rw [push_chargedAt, leave_chargedAt, if_pos ((mem_leaving hr).2 he)])
  | _ => exact Or.inr ⟨rfl, rfl⟩

/-- Whoever runs pays no more than the time up to which it is charged. -/
theorem Ticks.paid (h : m.Ticks stage m') (he : e ∈ m.running) (hc : m.chargedAt e ≤ m.now)
    (hover : ¬m.Overflows m' e) :
    ∃ paid, m'.runtime e = m.runtime e + paid ∧ m.chargedAt e + paid ≤ m'.chargedAt e ∧ m'.chargedAt e ≤ m.now := by
  have hdue : m.chargedAt e + m.due e ≤ m.now :=
    calc m.chargedAt e + m.due e ≤ m.chargedAt e + (m.now - m.chargedAt e) := Nat.add_le_add_left (m.due_le e) _
      _ = m.now := Nat.add_sub_cancel' hc
  have hat := h.chargedAt he
  cases h.fare e with
  | free hr ho ha =>
    refine ⟨0, hr, ?_⟩
    rcases hat with hat | ⟨hat, -⟩
    · exact ⟨hat ▸ hc, Nat.le_of_eq hat⟩
    · exact ⟨Nat.le_of_eq hat.symm, hat ▸ hc⟩
  | paid hrun hr ho =>
    have hfit : m.runtime e + m.due e ≤ maxWord := Nat.not_lt.1 fun hlt => hover (ho.2 hlt)
    rw [wrapWord_of_le hfit] at hr
    rcases hat with hat | ⟨hat, hsame⟩
    · exact ⟨m.due e, hr, hat ▸ hdue, Nat.le_of_eq hat⟩
    · exact ⟨0, hsame, Nat.le_of_eq hat.symm, hat ▸ hc⟩
  | entered hrun ha hr ho => exact absurd he hrun

/-- Whoever begins to run is charged from then on. -/
theorem Ticks.takenAt (h : m.Ticks stage m') (he : e ∈ m'.running) (hfree : e ∉ m.running) :
    m'.chargedAt e = m.now ∧ m'.now = m.now := by
  obtain ⟨w, htake⟩ := (h.begins he).resolve_left hfree
  obtain ⟨skipped, head, rest, -, -, -, rfl⟩ := h.taken htake
  exact ⟨if_pos rfl, rfl⟩

/-- Nobody's virtual runtime changes while it waits. -/
theorem Ticks.waits (h : m.Ticks stage m') (hq : e ∈ m.queue.map (·.executor)) (hr : e ∉ m.running) :
    m'.runtime e = m.runtime e := by
  cases h.fare e with
  | free hsame ho ha => exact hsame
  | paid hrun hpaid ho => exact absurd hrun hr
  | entered hrun ha hnew ho =>
    exfalso
    cases h with
    | enter e' hq' hr' =>
      obtain rfl : e' = e := by simpa using ha
      exact hq' hq
    | requeue e' hr' =>
      obtain rfl : e' = e := by simpa using ha
      exact hr hr'
    | leave e' hr' => simp at ha
    | _ => simp [Meter.take] at ha

/-- An executor has run since some moment, and is ahead of some others by no more than it was charged for since then. -/
structure Paced (m : Meter n) (S : Finset (Fin n)) (since : Instant) (e : Fin n) : Prop where
  charged : m.chargedAt e ≤ m.now
  ahead : ∀ e' ∈ S, m.runtime e + since ≤ m.runtime e' + m.chargedAt e

/-- It stays so while it runs, and when its stay ends. -/
theorem Paced.ticks {S : Finset (Fin n)} {since : Instant} (hp : m.Paced S since e) (h : m.Ticks stage m')
    (he : e ∈ m.running) (hover : ¬m.Overflows m' e) (hle : ∀ e' ∈ S, m.runtime e' ≤ m'.runtime e') :
    m'.Paced S since e ∧ m'.chargedAt e ≤ m.now := by
  obtain ⟨paid, hr, hpaid, hnow⟩ := h.paid he hp.charged hover
  refine ⟨⟨Nat.le_trans hnow (clampWord_mono h.clock_le), fun e' he' => ?_⟩, hnow⟩
  calc m'.runtime e + since
      = m.runtime e + since + paid := by rw [hr, Nat.add_right_comm]
    _ ≤ m.runtime e' + m.chargedAt e + paid := Nat.add_le_add_right (hp.ahead e' he') _
    _ = m.runtime e' + (m.chargedAt e + paid) := Nat.add_assoc ..
    _ ≤ m'.runtime e' + m'.chargedAt e := Nat.add_le_add (hle e' he') hpaid

end Meter

namespace Pool

/-! ## One worker -/

/-- A scheduler with one slot, as a run leaves it. -/
structure Sole (s : Pool n) : Prop extends s.Regular, s.Kept where
  words : s.meter.Words
  slots : s.slots.length = 1

variable {s : Pool n}

theorem Sole.act (h : s.Sole) (a : Action n) : (s.act a).Sole where
  toRegular := h.toRegular.act a
  toKept := h.toKept.act h.orderly a
  words := h.words.ticks (h.ticks a)
  slots := (Books.slots_goes (act_goes s a)).trans h.slots

theorem Sole.run (h : s.Sole) (actions : List (Action n)) : (s.run actions).Sole := by
  induction actions generalizing s with
  | nil => exact h
  | cons a actions ih => exact ih (h.act a)

/-! ## Contention -/

/-- How far the virtual runtimes of some executors are apart at most. -/
def spread (s : Pool n) (S : Finset (Fin n)) : Nat := (S ×ˢ S).sup fun p => s.runtime p.1 - s.runtime p.2

theorem runtime_le_spread (s : Pool n) {S : Finset (Fin n)} {e e' : Fin n} (he : e ∈ S) (he' : e' ∈ S) :
    s.runtime e ≤ s.runtime e' + s.spread S := by
  have hle : s.runtime e - s.runtime e' ≤ s.spread S :=
    Finset.le_sup (f := fun p : Fin n × Fin n => s.runtime p.1 - s.runtime p.2) (Finset.mk_mem_product he he')
  omega

/-- In a stretch of a run, none of some executors runs for longer than a slice may last. -/
def Brief (s : Pool n) (S : Finset (Fin n)) (slice : Nat) (stretch : List (Action n)) : Prop :=
  ∀ l k, l ++ k <+: stretch → ∀ e ∈ S, (∀ j, j <+: k → e ∈ (s.run (l ++ j)).running) →
    (s.run (l ++ k)).clock ≤ (s.run l).clock + slice

/-- An executor waits or runs, and is not abandoned. -/
def Active (s : Pool n) (e : Fin n) : Prop := (e ∈ s.waiting ∨ e ∈ s.running) ∧ s.abandoned e = false

instance (s : Pool n) (e : Fin n) : Decidable (s.Active e) :=
  inferInstanceAs (Decidable ((e ∈ s.waiting ∨ e ∈ s.running) ∧ s.abandoned e = false))

/-- Some executors contend for the worker in a stretch of a run. Others may come, run and go. -/
structure Contends (s : Pool n) (S : Finset (Fin n)) (slice : Nat) (stretch : List (Action n)) : Prop where
  /-- At first each of them waits. -/
  waiting : ∀ e ∈ S, e ∈ s.waiting
  /-- From then on each waits or runs all the time, and is not abandoned. -/
  active : s.Along (fun s a => ∀ e ∈ S, (s.act a).Active e) stretch
  /-- Each slice of theirs is brief. -/
  brief : s.Brief S slice stretch
  /-- What they are charged stays in the range of a word. -/
  fits : s.Along (fun s a => ∀ e ∈ S, ¬s.Overflows a e) stretch

variable {S : Finset (Fin n)} {slice bound : Nat} {l k : List (Action n)}

theorem Regular.clock_le (hs : s.Regular) (l : List (Action n)) : s.clock ≤ (s.run l).clock := by
  induction l generalizing s with
  | nil => exact Nat.le_refl _
  | cons a l ih => exact Nat.le_trans (hs.ticks a).clock_le (ih (hs.act a))

/-- A slice belongs to one of two stretches if none of the executors runs between them. -/
theorem Brief.append (h : s.Brief S slice l) (hfree : ∀ e ∈ S, e ∉ (s.run l).running)
    (h' : (s.run l).Brief S slice k) : s.Brief S slice (l ++ k) := by
  intro l₁ k₁ hl e he hrun
  rcases List.prefix_or_prefix_of_prefix ((List.prefix_append l₁ k₁).trans hl) (List.prefix_append l k) with
    ⟨j, rfl⟩ | ⟨m, rfl⟩
  · rw [List.append_assoc, List.prefix_append_right_inj] at hl
    rcases List.prefix_or_prefix_of_prefix hl (List.prefix_append j k) with hk | hj
    · exact h l₁ k₁ ((List.prefix_append_right_inj l₁).2 hk) e he hrun
    · exact absurd (hrun j hj) (hfree e he)
  · rw [List.append_assoc, List.prefix_append_right_inj] at hl
    have hrun' : ∀ j, j <+: k₁ → e ∈ ((s.run l).run (m ++ j)).running := by
      intro j hj
      rw [← run_append, ← List.append_assoc]
      exact hrun j hj
    have hclock := h' m k₁ hl e he hrun'
    rwa [← run_append, ← run_append, ← List.append_assoc] at hclock

theorem Brief.init (h : s.Brief S slice (l ++ k)) : s.Brief S slice l :=
  fun l₁ k₁ hl => h l₁ k₁ (hl.trans (List.prefix_append l k))

theorem Contends.init (h : s.Contends S slice (l ++ k)) : s.Contends S slice l :=
  ⟨h.waiting, (along_append.1 h.active).1, h.brief.init, (along_append.1 h.fits).1⟩

theorem Contends.active_run (h : s.Contends S slice l) (hs : s.Regular) {e : Fin n} (he : e ∈ S) :
    (s.run l).Active e := by
  induction l using List.reverseRecOn with
  | nil =>
    have hwait := h.waiting e he
    have hrun : e ∉ s.running := fun hrun => hs.apart hrun hwait
    exact ⟨Or.inl hwait, by simp [abandoned, run, hrun]⟩
  | append_singleton l a ih =>
    rw [run_append]
    exact (along_append.1 h.active).2.1 e he

/-- After a stretch, the virtual runtimes of some executors are close to each other, and whoever of them runs is ahead by
no more than it was charged for in its stay. -/
structure Close (s : Pool n) (S : Finset (Fin n)) (bound : Nat) (stretch : List (Action n)) : Prop where
  near : ∀ e ∈ S, ∀ e' ∈ S, (s.run stretch).runtime e ≤ (s.run stretch).runtime e' + bound
  stay : ∀ e ∈ S, e ∈ (s.run stretch).running → ∃ l k, stretch = l ++ k ∧
    (∀ j, j <+: k → e ∈ (s.run (l ++ j)).running) ∧ (s.run stretch).meter.Paced S (s.run l).now e

/-- Whoever of them is taken is the least. -/
theorem Sole.least (h : s.Sole) {a : Action n} (hnow : ∀ e ∈ S, s.Active e) (hthen : ∀ e ∈ S, (s.act a).Active e)
    {e : Fin n} (he : e ∈ S) (hrun : e ∈ (s.act a).running) (hfree : e ∉ s.running) {e' : Fin n} (he' : e' ∈ S) :
    (s.act a).runtime e ≤ (s.act a).runtime e' := by
  obtain ⟨w, htake⟩ := ((h.ticks a).begins hrun).resolve_left hfree
  have halone : ∀ x ∈ S, x ∉ s.running := by
    intro x hx hxrun
    have := h.alone h.orderly h.slots htake hrun (hthen e he).2 hxrun
    rw [(hnow x hx).2] at this
    cases this
  rcases (hthen e' he').1 with hwait | hrun'
  · have hrank := (h.dispatches htake).first e' hwait
    rw [rank, rank, Prod.Lex.toLex_lt_toLex] at hrank
    rcases hrank with hlt | ⟨heq, -⟩
    · exact Nat.le_of_lt hlt
    · exact Nat.le_of_eq heq
  · obtain ⟨w', htake'⟩ := ((h.ticks a).begins hrun').resolve_left (halone e' he')
    have heq : e = e' ∧ w = w' := by simpa using htake.symm.trans htake'
    rw [heq.1]

theorem Close.step (hs : s.Sole) {a : Action n} (hc : s.Contends S slice (l ++ [a])) (hbound : slice ≤ bound)
    (h : s.Close S bound l) : s.Close S bound (l ++ [a]) := by
  have hsole := hs.run l
  have ht := hsole.ticks a
  have hrun : s.run (l ++ [a]) = (s.run l).act a := run_append s l [a]
  have hnow : ∀ e ∈ S, (s.run l).Active e := fun e he => hc.init.active_run hs.toRegular he
  have hthen : ∀ e ∈ S, ((s.run l).act a).Active e := (along_append.1 hc.active).2.1
  have hover : ∀ e ∈ S, ¬(s.run l).meter.Overflows ((s.run l).act a).meter e := (along_append.1 hc.fits).2.1
  have hle : ∀ e ∈ S, (s.run l).runtime e ≤ ((s.run l).act a).runtime e := fun e he =>
    ht.runtime_le hsole.words (hover e he)
  constructor
  case near =>
    intro e he e' he'
    rw [hrun]
    by_cases hrunning : e ∈ (s.run l).running
    · -- Whoever runs is ahead by what it has paid in its stay, which is no more than a slice.
      obtain ⟨l₁, k, rfl, hstay, hp⟩ := h.stay e he hrunning
      obtain ⟨hp', hat⟩ := hp.ticks ht hrunning (hover e he) hle
      have hbrief := hc.brief l₁ k (List.prefix_append _ _) e he hstay
      have hclock : (s.run (l₁ ++ k)).now ≤ (s.run l₁).now + slice :=
        Nat.le_trans (clampWord_mono hbrief) (clampWord_add_le _ _)
      have hahead : ((s.run (l₁ ++ k)).act a).runtime e + (s.run l₁).now ≤
          ((s.run (l₁ ++ k)).act a).runtime e' + ((s.run (l₁ ++ k)).act a).meter.chargedAt e := hp'.ahead e' he'
      refine Nat.le_of_add_le_add_right (b := (s.run l₁).now) ?_
      calc ((s.run (l₁ ++ k)).act a).runtime e + (s.run l₁).now
          ≤ ((s.run (l₁ ++ k)).act a).runtime e' + ((s.run (l₁ ++ k)).act a).meter.chargedAt e := hahead
        _ ≤ ((s.run (l₁ ++ k)).act a).runtime e' + ((s.run l₁).now + bound) :=
          Nat.add_le_add_left (Nat.le_trans hat (Nat.le_trans hclock (Nat.add_le_add_left hbound _))) _
        _ = ((s.run (l₁ ++ k)).act a).runtime e' + bound + (s.run l₁).now := by
          rw [Nat.add_comm (s.run l₁).now, Nat.add_assoc]
    · -- Whoever waits stays where it is.
      have hwait := (hnow e he).1.resolve_right hrunning
      have hsame : ((s.run l).act a).runtime e = (s.run l).runtime e := ht.waits hwait hrunning
      have hnear := h.near e he e' he'
      have := hle e' he'
      omega
  case stay =>
    intro e he hrunning
    rw [hrun] at hrunning ⊢
    by_cases hold : e ∈ (s.run l).running
    · obtain ⟨l₁, k, rfl, hstay, hp⟩ := h.stay e he hold
      refine ⟨l₁, k ++ [a], List.append_assoc .., fun j hj => ?_, (hp.ticks ht hold (hover e he) hle).1⟩
      rcases List.prefix_concat_iff.1 hj with rfl | hj
      · rwa [← List.append_assoc, hrun]
      · exact hstay j hj
    · refine ⟨l ++ [a], [], (List.append_nil _).symm, fun j hj => ?_, ?_⟩
      · rw [List.prefix_nil.1 hj, List.append_nil, hrun]
        exact hrunning
      · rw [hrun]
        obtain ⟨hat, hsame⟩ := ht.takenAt hrunning hold
        exact ⟨Nat.le_of_eq (hat.trans hsame.symm), fun e' he' =>
          Nat.add_le_add (hsole.least hnow hthen he hrunning hold he') (Nat.le_of_eq (hsame.trans hat.symm))⟩

/-- Executors that contend stay close to each other. -/
theorem Contends.close (hs : s.Sole) (h : s.Contends S slice l) (hbound : slice ≤ bound) (hspread : s.spread S ≤ bound) :
    s.Close S bound l := by
  induction l using List.reverseRecOn with
  | nil =>
    refine ⟨fun e he e' he' => ?_, fun e he hrun => absurd (h.waiting e he) (hs.apart hrun)⟩
    exact Nat.le_trans (s.runtime_le_spread he he') (Nat.add_le_add_left hspread _)
  | append_singleton l a ih => exact (ih h.init).step hs h hbound

end Pool

end FairShare.Scheduler
