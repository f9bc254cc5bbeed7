import FairShare.Proofs.History
import FairShare.Proofs.Runtime

/-!
# Stays

An executor stays on a worker from the moment at which it is taken until that stay ends, by whatever thread. It is
charged in stretches: whenever somebody enters the run queue, whenever somebody leaves a worker, and when it leaves its
own. The stretches of a stay lie end to end, so every moment of the stay is charged once, and no other moment is.
-/

namespace FairShare.Scheduler

variable {n : Nat}

/-! ## Stretches of time -/

/-- A stretch of time for which an executor is charged. -/
structure Stretch where
  /-- The moment at which it begins. -/
  since : Nat
  /-- The moment at which it ends. -/
  upTo : Nat
  /-- How many share it. -/
  tasks : Nat
  deriving DecidableEq

namespace Stretch

/-- What a stretch adds to a virtual runtime. -/
def fee (x : Stretch) : Nat := (x.upTo - x.since) / x.tasks

/-- Whether a moment lies in a stretch. -/
def covers (moment : Nat) (x : Stretch) : Bool := decide (x.since ≤ moment ∧ moment < x.upTo)

/-- Stretches lie end to end, from one moment to another. -/
def Tile : List Stretch → Nat → Nat → Prop
  | [], start, stop => start = stop
  | x :: l, start, stop => x.since = start ∧ start ≤ x.upTo ∧ Tile l x.upTo stop

variable {l : List Stretch} {start stop : Nat}

theorem Tile.append {l' : List Stretch} {stop' : Nat} (h : Tile l start stop) (h' : Tile l' stop stop') :
    Tile (l ++ l') start stop' := by
  induction l generalizing start with
  | nil => exact (show start = stop from h) ▸ h'
  | cons x l ih => exact ⟨h.1, h.2.1, ih h.2.2⟩

theorem Tile.le (h : Tile l start stop) : start ≤ stop := by
  induction l generalizing start with
  | nil => exact Nat.le_of_eq h
  | cons x l ih => exact Nat.le_trans h.2.1 (ih h.2.2)

/-- Stretches that lie end to end cover every moment between their ends once, and no other. -/
theorem Tile.covers (h : Tile l start stop) (moment : Nat) :
    l.countP (Stretch.covers moment) = if start ≤ moment ∧ moment < stop then 1 else 0 := by
  induction l generalizing start with
  | nil =>
    have hnone : ¬(start ≤ moment ∧ moment < stop) := by rw [show start = stop from h]; omega
    simp [hnone]
  | cons x l ih =>
    obtain ⟨rfl, hx, hl⟩ := h
    have := hl.le
    rw [List.countP_cons, ih hl, Stretch.covers]
    simp only [decide_eq_true_eq]
    split_ifs <;> omega

end Stretch

/-- The stretch for which an executor was charged. -/
def Event.stretch? (e : Fin n) : Event n → Option Stretch
  | .charged e' since upTo tasks => if e' = e then some ⟨since, upTo, tasks⟩ else none
  | _ => none

theorem Event.stretch_eq_none (e : Fin n) (v : Event n) (h : v.isTelling = false) : v.stretch? e = none := by
  cases v <;> first | rfl | cases h

/-- The stretch that an executor pays for if it is charged now. -/
def Meter.stretch (m : Meter n) (e : Fin n) : Stretch := ⟨m.chargedAt e, m.now, 1 + m.queue.length⟩

theorem Meter.fee_stretch (m : Meter n) (e : Fin n) : (m.stretch e).fee = m.due e := rfl

namespace Pool

/-- The stretches for which an executor was charged so far. -/
def stretches (s : Pool n) (e : Fin n) : List Stretch := s.told (Event.stretch? e)

/-- What was charged for the stretches of an executor is what it was charged. -/
theorem fees_eq (s : Pool n) (e : Fin n) :
    (s.stretches e).map Stretch.fee = (s.charges.filter (·.1 = e)).map (·.2) := by
  unfold stretches told charges
  induction s.history.toList with
  | nil => rfl
  | cons v l ih =>
    cases v
    case charged e' since upTo tasks => by_cases h : e' = e <;> simp [Event.stretch?, Event.charged?, h, ih, Stretch.fee]
    all_goals exact ih

/-! ## Charges -/

/-- An instruction that neither puts an executor into the run queue nor ends a stay charges nobody. -/
theorem stretches_exec (s : Pool n) (t : ThreadId) {i : Instr n} (henter : ∀ e, i ≠ .enqueue e)
    (hsettle : ∀ e, i ≠ .settle e) (e : Fin n) : (s.exec t i).1.stretches e = s.stretches e := by
  by_cases hvacate : ∃ w respawn, i = .vacate w respawn
  · obtain ⟨w, respawn, rfl⟩ := hvacate
    exact (quiet_told (Event.stretch_eq_none e)).placid.vacate s w respawn fun _ _ => Or.inr fun s' => told_emit rfl s'
  · exact told_exec (Event.stretch_eq_none e) s t henter hsettle fun w respawn hi => hvacate ⟨w, respawn, hi⟩

theorem stretches_chargeOne (now : Instant) (tasks : Nat) (acc : Pool n × Nat) (e e' : Fin n) :
    (chargeOne now tasks acc e).1.stretches e' =
      acc.1.stretches e' ++ if e' = e then [⟨(acc.1.executor e').chargedAt, now, tasks⟩] else [] := by
  show (acc.1.emit _).stretches e' = _
  by_cases h : e' = e
  · subst h
    simp [stretches, told, toList_emit, Event.stretch?]
  · simp [stretches, told, toList_emit, Event.stretch?, h, Ne.symm h]

theorem stretches_foldl_charge {l : List (Fin n)} (hl : l.Nodup) (now : Instant) (tasks : Nat) (acc : Pool n × Nat)
    (e : Fin n) : (l.foldl (chargeOne now tasks) acc).1.stretches e =
      acc.1.stretches e ++ if e ∈ l then [⟨(acc.1.executor e).chargedAt, now, tasks⟩] else [] := by
  induction l generalizing acc with
  | nil => simp
  | cons x l ih =>
    obtain ⟨hx, hl⟩ := List.nodup_cons.1 hl
    rw [List.foldl_cons, ih hl, stretches_chargeOne]
    by_cases h : e = x
    · subst h
      simp [hx]
    · have hsame : (chargeOne now tasks acc x).1.executor e = acc.1.executor e :=
        executor_modify_of_ne (acc.1.emit _) _ (Ne.symm h)
      simp [h, hsame]

/-- Everybody who is charged is charged up to now. -/
theorem stretches_chargeAll (s : Pool n) (leaving : Option (Fin n)) (hl : (s.running ++ leaving.toList).Nodup)
    (e : Fin n) : (s.chargeAll leaving).stretches e =
      s.stretches e ++ if e ∈ s.running ++ leaving.toList then [s.meter.stretch e] else [] := by
  have hmin : ∀ (s : Pool n) (least : Nat), (s.raiseMinimum least).stretches = s.stretches := by
    intro s least
    unfold raiseMinimum
    split <;> rfl
  unfold chargeAll
  simp only
  rw [hmin, stretches_foldl_charge hl]
  rfl

theorem stretches_enqueue (s : Pool n) (e : Fin n) (hr : s.running.Nodup) {s' : Pool n} (h : s.enqueue e = .ok s')
    (e' : Fin n) : s'.stretches e' = s.stretches e' ∨ s'.stretches e' = s.stretches e' ++ [s.meter.stretch e'] := by
  rcases told_enqueue (Event.stretch_eq_none e') s e h with hs' | hs'
  · exact Or.inl hs'
  · have hm := meter_ensureRunning s
    have hc := stretches_chargeAll s.ensureRunning none
      (by simpa [show s.ensureRunning.running = s.running from congrArg Meter.running hm] using hr) e'
    have hkeep : s.ensureRunning.stretches e' = s.stretches e' := told_ensureRunning s
    rw [hkeep, hm] at hc
    have hs' : s'.stretches e' = _ := hs'.trans hc
    rw [hs']
    split
    · exact Or.inr rfl
    · exact Or.inl (List.append_nil _)

theorem stretches_settle (s : Pool n) (e : Fin n) (hr : s.running.Nodup) (e' : Fin n) :
    (s.settle e).1.stretches e' = s.stretches e' ∨
      (s.settle e).1.stretches e' = s.stretches e' ++ [s.meter.stretch e'] := by
  have hnodup : (s.running.filter (· != e) ++ [e]).Nodup := by
    rw [List.nodup_append]
    exact ⟨hr.filter _, List.nodup_singleton e, by simp⟩
  have hc := stretches_chargeAll { s with running := s.running.filter (· != e) } (some e) hnodup e'
  have hs' : (s.settle e).1.stretches e' = _ := ((quiet_told (Event.stretch_eq_none e')).placid.settle s e).trans hc
  rw [hs']
  split
  · exact Or.inr rfl
  · exact Or.inl (List.append_nil _)

theorem exec_stretches (s : Pool n) (t : ThreadId) (i : Instr n) (hr : s.running.Nodup) (e : Fin n) :
    (s.exec t i).1.stretches e = s.stretches e ∨
      (s.exec t i).1.stretches e = s.stretches e ++ [s.meter.stretch e] := by
  cases i
  case enqueue e' =>
    simp only [exec]
    split
    · split
      · rename_i s' hs'
        have hemit : ((s'.emit (.submitted e' (.ok ()))).setAnswer t (.result (.ok ()))).stretches e = s'.stretches e :=
          told_emit rfl s'
        rw [hemit]
        exact stretches_enqueue s e' hr hs' e
      · exact Or.inl rfl
    · exact Or.inl rfl
  case settle e' =>
    have hexec : (s.exec t (.settle e')).1 = (s.settle e').1 := by
      simp only [exec]
      split <;> (rename_i h; rw [h])
    rw [hexec]
    exact stretches_settle s e' hr e
  all_goals exact Or.inl (stretches_exec s t (by simp) (by simp) e)

theorem Regular.nodup {s : Pool n} (h : s.Regular) : s.running.Nodup := Books.running_nodup h.placed

/-- An action charges an executor at most once, and then up to now. -/
theorem Regular.stretches {s : Pool n} (hs : s.Regular) (a : Action n) (e : Fin n) :
    (s.act a).stretches e = s.stretches e ∨ (s.act a).stretches e = s.stretches e ++ [s.meter.stretch e] := by
  have hr := hs.nodup
  cases a with
  | step t =>
    show (s.step t).stretches e = _ ∨ (s.step t).stretches e = _
    unfold step
    cases hcode : s.code t with
    | nil => exact Or.inl rfl
    | cons i rest =>
      simp only
      split
      · exact Or.inl rfl
      · exact exec_stretches (s.setCode t rest) t i hr e
  | work t a =>
    left
    simp only [Pool.act]
    split
    · cases a with
      | finish result => exact told_emit rfl s
      | _ => rfl
    · rfl
  | _ => exact Or.inl rfl

end Pool

/-! ## What an action does to a stay -/

namespace Meter

variable {m m' : Meter n} {stage : Fin n → Stage} {e : Fin n}

/-- How often an executor was charged. -/
def payments (m : Meter n) (e : Fin n) : Nat := m.charges.countP (·.1 = e)

theorem payments_charge (m : Meter n) {l : List (Fin n)} (hl : l.Nodup) (e : Fin n) :
    (m.charge l).payments e = m.payments e + if e ∈ l then 1 else 0 := by
  have hcount : (l.map fun e => (e, m.due e)).countP (·.1 = e) = l.count e := by
    rw [List.countP_map, List.count_eq_countP]
    exact List.countP_congr fun x _ => by simp
  rw [payments, charge_charges, List.countP_append, hcount, hl.count]
  rfl

theorem mem_charges_charge (m : Meter n) {l : List (Fin n)} (he : e ∈ l) :
    (e, m.due e) ∈ (m.charge l).charges.drop m.charges.length := by
  rw [charge_charges, List.drop_left]
  exact List.mem_map_of_mem he

/-- What can happen to the stay of an executor. -/
inductive Stay (m : Meter n) (e : Fin n) (m' : Meter n) : Prop where
  /-- There is none. -/
  | away (he : e ∉ m.running) (he' : e ∉ m'.running) (hp : m'.payments e = m.payments e)
  /-- It begins. -/
  | taken (he : e ∉ m.running) (he' : e ∈ m'.running) (hat : m'.chargedAt e = m.now) (hr : m'.runtime e = m.runtime e)
      (hp : m'.payments e = m.payments e)
  /-- It goes on. -/
  | rests (he : e ∈ m.running) (he' : e ∈ m'.running) (hat : m'.chargedAt e = m.chargedAt e)
      (hr : m'.runtime e = m.runtime e) (hp : m'.payments e = m.payments e)
  /-- The executor is charged, and the stay may end. -/
  | pays (he : e ∈ m.running) (hat : m'.chargedAt e = m.now) (hr : m'.runtime e = wrapWord (m.runtime e + m.due e))
      (hp : m'.payments e = m.payments e + 1) (hc : (e, m.due e) ∈ m'.charges.drop m.charges.length)

/-- A stay is none of the run queue's business. -/
theorem Stay.push (h : m.Stay e m') (e' : Fin n) : m.Stay e (m'.push e') := by
  cases h with
  | away he he' hp => exact .away he he' hp
  | taken he he' hat hr hp => exact .taken he he' hat hr hp
  | rests he he' hat hr hp => exact .rests he he' hat hr hp
  | pays he hat hr hp hc => exact .pays he hat hr hp hc

/-- Who leaves a worker is charged, and so is everybody who stays. -/
theorem stay_leave (hn : m.running.Nodup) (he : e ∈ m.running) (e' : Fin n) : m.Stay e' (m.leave e) := by
  have hl : (m.running.filter (· != e) ++ [e]).Nodup := by
    rw [List.nodup_append]
    exact ⟨hn.filter _, List.nodup_singleton e, by simp⟩
  have hp : (m.leave e).payments e' = m.payments e' + if e' ∈ m.running then 1 else 0 := by
    have h := payments_charge { m with running := m.running.filter (· != e) } hl e'
    simp only [mem_leaving he] at h
    exact h
  by_cases he' : e' ∈ m.running
  · have hmem := (mem_leaving he).2 he'
    refine .pays he' ?_ ?_ ?_ ?_
    · rw [leave_chargedAt, if_pos hmem]
    · rw [leave_runtime he, if_pos he']
    · rw [hp, if_pos he']
    · exact mem_charges_charge { m with running := m.running.filter (· != e) } hmem
  · refine .away he' ?_ ?_
    · rw [leave_running]
      exact fun h => he' (List.mem_filter.1 h).1
    · rw [hp, if_neg he']
      rfl

theorem Ticks.stay (h : m.Ticks stage m') (hn : m.running.Nodup)
    (hapart : ∀ e ∈ m.running, e ∉ m.queue.map (·.executor)) (e : Fin n) : m.Stay e m' := by
  have hsame : ∀ m' : Meter n, m'.running = m.running → m'.chargedAt = m.chargedAt → m'.runtime = m.runtime →
      m'.charges = m.charges → m.Stay e m' := by
    intro m' hrun hat hr hc
    have hp : m'.payments e = m.payments e := by rw [payments, hc]; rfl
    by_cases he : e ∈ m.running
    · exact .rests he (hrun ▸ he) (by rw [hat]) (by rw [hr]) hp
    · exact .away he (hrun ▸ he) hp
  cases h with
  | enter e' hq hr =>
    have hp := payments_charge m hn e
    by_cases he : e ∈ m.running
    · have hne : e ≠ e' := fun heq => hr (heq ▸ he)
      exact .pays he (by simp [he]) (by simp [enter_runtime, hne, he]) (hp.trans (by rw [if_pos he]))
        (mem_charges_charge m he)
    · exact .away he (by simpa using he) (hp.trans (by rw [if_neg he]; rfl))
  | take w skipped head rest hq hdone =>
    have hfree : head.executor ∉ m.running := fun hrun => hapart _ hrun (by simp [hq])
    by_cases heq : e = head.executor
    · exact .taken (heq ▸ hfree) (by simp [Meter.take, heq]) (by simp [Meter.take, heq]) rfl rfl
    · by_cases he : e ∈ m.running
      · exact .rests he (by simp [Meter.take, he]) (by simp [Meter.take, heq]) rfl rfl
      · exact .away he (by simp [Meter.take, he, heq]) rfl
  | leave e' hr => exact stay_leave hn hr e
  | requeue e' hr => exact (stay_leave hn hr e).push e'
  | _ => exact hsame _ rfl rfl rfl rfl

end Meter

namespace Account

/-- An executor is on a worker as often as it was taken and its stay has not ended since. -/
def Balanced (a : Account) : Prop := a.marks.count .taken = a.marks.count .settled + a.running

theorem Balanced.move {a a' : Account} (h : a.Balanced) (hp : a.Placed) (hm : a.Move a') : a'.Balanced := by
  have hsingle := hp.single
  have hstay := hp.staying
  unfold Balanced at h ⊢
  cases hm with
  | take a hq =>
    simp only [List.count_append, List.count_singleton] at h ⊢
    simp at h ⊢
    omega
  | settle a hr =>
    simp at h hsingle hstay ⊢
    omega
  | requeue a hr hph =>
    simp at h hsingle hstay ⊢
    omega
  | _ => simpa using h

/-- No stay begins in the move with which one ends. -/
theorem Move.taken_or_settled {a a' : Account} (hm : a.Move a') :
    a'.marks.count .taken = a.marks.count .taken ∧ a.marks.count .settled ≤ a'.marks.count .settled ∨
      a'.marks.count .settled = a.marks.count .settled ∧ a.marks.count .taken ≤ a'.marks.count .taken := by
  cases hm <;> simp

end Account

namespace Pool

variable {s : Pool n}

/-- Whoever runs is there since a worker took it, and is charged up to some moment that has passed. -/
structure Timely (s : Pool n) : Prop extends s.Regular where
  balanced : ∀ e, (s.books.account e).Balanced
  charged : ∀ e ∈ s.running, (s.executor e).chargedAt ≤ s.now

theorem Regular.stay (h : s.Regular) (a : Action n) (e : Fin n) : s.meter.Stay e (s.act a).meter :=
  (h.ticks a).stay h.nodup (fun _ => h.apart) e

theorem Timely.times_eq (h : s.Timely) (e : Fin n) : s.times e .taken = s.times e .settled + s.running.count e := by
  rw [Pool.times_eq, Pool.times_eq]
  exact h.balanced e

theorem now_le_act (h : s.Regular) (a : Action n) : s.now ≤ (s.act a).now := clampWord_mono (h.ticks a).clock_le

theorem timely_create (config : SchedulerConfig) (context : Metrics.Context) (log : LogFilter)
    (hosts : Vector Host n) : (create config context log hosts).Timely := by
  refine ⟨regular_create config context log hosts, fun e => ?_, fun e he => ?_⟩
  · rw [books_create, Books.account_start]
    rfl
  · cases he

theorem Timely.act (h : s.Timely) (a : Action n) : (s.act a).Timely := by
  refine ⟨h.toRegular.act a, fun e => ?_, fun e he => ?_⟩
  · exact (h.balanced e).move (h.placed e) ((act_moves s a).account h.orderly e)
  · have hnow := now_le_act h.toRegular a
    cases h.stay a e with
    | away _ he' => exact absurd he he'
    | taken _ _ hat => exact Nat.le_trans (Nat.le_of_eq hat) hnow
    | rests he _ hat => exact Nat.le_trans (Nat.le_of_eq hat) (Nat.le_trans (h.charged e he) hnow)
    | pays _ hat => exact Nat.le_trans (Nat.le_of_eq hat) hnow

theorem Timely.run (h : s.Timely) (actions : List (Action n)) : (s.run actions).Timely := by
  induction actions generalizing s with
  | nil => exact h
  | cons a actions ih => exact ih (h.act a)

theorem length_stretches (s : Pool n) (e : Fin n) : (s.stretches e).length = s.meter.payments e := by
  rw [← List.length_map Stretch.fee, fees_eq, List.length_map, Meter.payments, List.countP_eq_length_filter]
  rfl

theorem Regular.stretches_keep (h : s.Regular) {a : Action n} {e : Fin n}
    (hp : (s.act a).meter.payments e = s.meter.payments e) : (s.act a).stretches e = s.stretches e := by
  rcases h.stretches a e with hx | hx
  · exact hx
  · rw [← length_stretches, ← length_stretches, hx] at hp
    simp at hp

theorem Regular.stretches_pay (h : s.Regular) {a : Action n} {e : Fin n}
    (hp : (s.act a).meter.payments e = s.meter.payments e + 1) :
    (s.act a).stretches e = s.stretches e ++ [s.meter.stretch e] := by
  rcases h.stretches a e with hx | hx
  · rw [← length_stretches, ← length_stretches, hx] at hp
    omega
  · exact hx

/-! ## What a run charges -/

/-- A stay of an executor on a worker, up to the present: it begins with the worker taking the executor, and has not
ended. -/
def Stays (s : Pool n) (e : Fin n) : List (Action n) → Prop
  | [] => False
  | a :: actions => s.times e .taken < (s.act a).times e .taken ∧
    (s.act a).Along (fun s a => (s.act a).times e .settled = s.times e .settled) actions

/-- On the way from one state to another an executor pays for some stretches, and for nothing else. -/
structure PaysFor (s : Pool n) (e : Fin n) (s' : Pool n) (paid : List Stretch) : Prop where
  stretches : s'.stretches e = s.stretches e ++ paid
  runtime : s'.runtime e = s.runtime e + (paid.map Stretch.fee).sum

/-- An executor is charged once for its stays on workers, and for nothing else. -/
structure ChargedOnce (s : Pool n) (e : Fin n) (actions : List (Action n)) : Prop where
  /-- In a stay it pays for stretches that lie end to end, from the moment at which it was taken to the one up to which it
  is charged. -/
  ongoing : ∀ before stay after, actions = before ++ stay ++ after → (s.run before).Stays e stay →
    ∃ paid, (s.run before).PaysFor e (s.run (before ++ stay)) paid ∧
      Stretch.Tile paid (s.run before).now ((s.run (before ++ stay)).executor e).chargedAt
  /-- When the stay ends, they reach to the moment at which it does. -/
  ended : ∀ before stay a after, actions = before ++ stay ++ a :: after → (s.run before).Stays e stay →
    (s.run (before ++ stay)).times e .settled < (s.run (before ++ stay ++ [a])).times e .settled →
    ∃ paid, (s.run before).PaysFor e (s.run (before ++ stay ++ [a])) paid ∧
      Stretch.Tile paid (s.run before).now (s.run (before ++ stay)).now
  /-- Each of them reaches from the last charge to the present, and is shared by those who wait and one more. -/
  each : ∀ before a after, actions = before ++ a :: after →
    (s.run (before ++ [a])).stretches e = (s.run before).stretches e ∨
      (s.run before).PaysFor e (s.run (before ++ [a]))
        [⟨((s.run before).executor e).chargedAt, (s.run before).now, 1 + (s.run before).queue.length⟩]
  /-- Between two stays it pays for nothing. -/
  between : ∀ before a after, actions = before ++ a :: after →
    (s.run before).times e .taken = (s.run before).times e .settled →
    (s.run (before ++ [a])).stretches e = (s.run before).stretches e

/-- A stay that begins is the only one. -/
theorem Timely.begins (h : s.Timely) {a : Action n} {e : Fin n} (ht : s.times e .taken < (s.act a).times e .taken) :
    e ∉ s.running ∧ e ∈ (s.act a).running := by
  have hmove := ((act_moves s a).account h.orderly e).taken_or_settled
  have hbal := h.times_eq e
  have hbal' := (h.act a).times_eq e
  have hone := List.nodup_iff_count.1 (h.act a).nodup e
  simp only [← Pool.times_eq] at hmove
  rw [← List.count_eq_zero, ← List.count_pos_iff]
  omega

/-- A stay goes on until it ends. -/
theorem Timely.remains (h : s.Timely) {a : Action n} {e : Fin n} (he : e ∈ s.running)
    (hs : (s.act a).times e .settled = s.times e .settled) : e ∈ (s.act a).running := by
  have hmove := ((act_moves s a).account h.orderly e).taken_or_settled
  have hbal := h.times_eq e
  have hbal' := (h.act a).times_eq e
  simp only [← Pool.times_eq] at hmove
  rw [← List.count_pos_iff] at he ⊢
  omega

/-- A stay that ends is there no more. -/
theorem Timely.ends (h : s.Timely) {a : Action n} {e : Fin n} (hs : s.times e .settled < (s.act a).times e .settled) :
    e ∉ (s.act a).running := by
  have hmove := ((act_moves s a).account h.orderly e).taken_or_settled
  have hbal := h.times_eq e
  have hbal' := (h.act a).times_eq e
  have hone := List.nodup_iff_count.1 h.nodup e
  simp only [← Pool.times_eq] at hmove
  rw [← List.count_eq_zero]
  omega

theorem PaysFor.trans {s' s'' : Pool n} {e : Fin n} {paid paid' : List Stretch} (h : s.PaysFor e s' paid)
    (h' : s'.PaysFor e s'' paid') : s.PaysFor e s'' (paid ++ paid') := by
  constructor
  · rw [h'.stretches, h.stretches, List.append_assoc]
  · rw [h'.runtime, h.runtime, List.map_append, List.sum_append, Nat.add_assoc]

theorem PaysFor.nothing {s' : Pool n} {e : Fin n} (hx : s'.stretches e = s.stretches e) (hr : s'.runtime e = s.runtime e) :
    s.PaysFor e s' [] := ⟨by simp [hx], by simp [hr]⟩

/-- A charge that does not overflow is paid in full. -/
theorem Regular.pays (h : s.Regular) {a : Action n} {e : Fin n} (hover : ¬s.Overflows a e)
    (hr : (s.act a).meter.runtime e = wrapWord (s.meter.runtime e + s.meter.due e))
    (hp : (s.act a).meter.payments e = s.meter.payments e + 1)
    (hc : (e, s.meter.due e) ∈ (s.act a).meter.charges.drop s.meter.charges.length) :
    s.PaysFor e (s.act a) [s.meter.stretch e] := by
  have hfits : s.meter.runtime e + s.meter.due e ≤ maxWord := Nat.not_lt.1 fun hlt => hover ⟨_, hc, rfl, hlt⟩
  refine ⟨h.stretches_pay hp, ?_⟩
  rw [wrapWord_of_le hfits] at hr
  rw [List.map_singleton, List.sum_singleton, Meter.fee_stretch]
  exact hr

/-- Whoever is on a worker pays from the last charge on. -/
theorem Timely.pays_act (h : s.Timely) {a : Action n} {e : Fin n} (hover : ¬s.Overflows a e) (he : e ∈ s.running) :
    ∃ paid, s.PaysFor e (s.act a) paid ∧
      Stretch.Tile paid (s.executor e).chargedAt ((s.act a).executor e).chargedAt ∧
        (e ∉ (s.act a).running → ((s.act a).executor e).chargedAt = s.now) := by
  cases h.stay a e with
  | away hfree => exact absurd he hfree
  | taken hfree => exact absurd he hfree
  | rests _ he' hat hr hp =>
    exact ⟨[], .nothing (h.stretches_keep hp) hr, hat.symm, fun hleft => absurd he' hleft⟩
  | pays _ hat hr hp hc => exact ⟨_, h.pays hover hr hp hc, ⟨rfl, h.charged e he, hat.symm⟩, fun _ => hat⟩

theorem Timely.pays_run (h : s.Timely) {e : Fin n} (he : e ∈ s.running) {actions : List (Action n)}
    (hstay : s.Along (fun s a => (s.act a).times e .settled = s.times e .settled) actions)
    (hfits : s.Along (fun s a => ∀ e, ¬s.Overflows a e) actions) :
    e ∈ (s.run actions).running ∧ ∃ paid, s.PaysFor e (s.run actions) paid ∧
      Stretch.Tile paid (s.executor e).chargedAt ((s.run actions).executor e).chargedAt := by
  induction actions generalizing s with
  | nil => exact ⟨he, [], .nothing rfl rfl, rfl⟩
  | cons a actions ih =>
    obtain ⟨first, hfirst, htile, -⟩ := h.pays_act (hfits.1 e) he
    obtain ⟨hin, rest, hrest, htile'⟩ := ih (h.act a) (h.remains he hstay.1) hstay.2 hfits.2
    exact ⟨hin, first ++ rest, hfirst.trans hrest, htile.append htile'⟩

/-- In a stay an executor pays from the moment at which it was taken. -/
theorem Timely.pays_stay (h : s.Timely) {e : Fin n} {stay : List (Action n)} (hs : s.Stays e stay)
    (hfits : s.Along (fun s a => ∀ e, ¬s.Overflows a e) stay) :
    e ∈ (s.run stay).running ∧ ∃ paid, s.PaysFor e (s.run stay) paid ∧
      Stretch.Tile paid s.now ((s.run stay).executor e).chargedAt := by
  cases stay with
  | nil => exact absurd hs id
  | cons a stay =>
    obtain ⟨hfree, hin⟩ := h.begins hs.1
    obtain ⟨hin', paid, hpaid, htile⟩ := (h.act a).pays_run hin hs.2 hfits.2
    cases h.stay a e with
    | away _ hout => exact absurd hin hout
    | rests he => exact absurd he hfree
    | pays he => exact absurd he hfree
    | taken _ _ hat hr hp =>
      have hnone : s.PaysFor e (s.act a) [] := .nothing (h.stretches_keep hp) hr
      have hat : ((s.act a).executor e).chargedAt = s.now := hat
      exact ⟨hin', paid, hnone.trans hpaid, hat ▸ htile⟩

/-- Every run charges the running time of an executor once, as long as no charge overflows. -/
theorem run_chargedOnce (config : SchedulerConfig) (context : Metrics.Context) (log : LogFilter)
    (hosts : Vector Host n) (actions : List (Action n))
    (hfits : (create config context log hosts).Along (fun s a => ∀ e, ¬s.Overflows a e) actions) (e : Fin n) :
    (create config context log hosts).ChargedOnce e actions := by
  have hstart := timely_create config context log hosts
  generalize create config context log hosts = s at hstart hfits
  constructor
  case ongoing =>
    intro before stay after hl hs
    obtain ⟨hbefore, -⟩ := along_append.1 (hl ▸ hfits)
    obtain ⟨-, hstay⟩ := along_append.1 hbefore
    rw [run_append]
    exact ((hstart.run before).pays_stay hs hstay).2
  case ended =>
    intro before stay a after hl hs hend
    obtain ⟨hbefore, hover, -⟩ := along_append.1 (hl ▸ hfits)
    obtain ⟨-, hstay⟩ := along_append.1 hbefore
    obtain ⟨hin, paid, hpaid, htile⟩ := (hstart.run before).pays_stay hs hstay
    rw [run_append s (before ++ stay) [a]] at hend ⊢
    rw [run_append s before stay] at hover hend ⊢
    have hlast := (hstart.run before).run stay
    obtain ⟨last, hlastPaid, hlastTile, hnow⟩ := hlast.pays_act (hover e) hin
    have hnow : (((s.run before).run stay).act a |>.executor e).chargedAt = ((s.run before).run stay).now :=
      hnow (hlast.ends hend)
    exact ⟨paid ++ last, hpaid.trans hlastPaid, hnow ▸ htile.append hlastTile⟩
  case each =>
    intro before a after hl
    obtain ⟨-, hover, -⟩ := along_append.1 (hl ▸ hfits)
    have hs := hstart.run before
    rw [run_append s before [a]]
    cases hs.stay a e with
    | away _ _ hp => exact Or.inl (hs.stretches_keep hp)
    | taken _ _ _ _ hp => exact Or.inl (hs.stretches_keep hp)
    | rests _ _ _ _ hp => exact Or.inl (hs.stretches_keep hp)
    | pays _ _ hr hp hc => exact Or.inr (hs.pays (hover e) hr hp hc)
  case between =>
    intro before a after hl hoff
    have hs := hstart.run before
    rw [run_append s before [a]]
    have hfree : e ∉ (s.run before).running := by
      have hbal := hs.times_eq e
      rw [← List.count_eq_zero]
      omega
    cases hs.stay a e with
    | away _ _ hp => exact hs.stretches_keep hp
    | taken _ _ _ _ hp => exact hs.stretches_keep hp
    | rests he => exact absurd he hfree
    | pays he => exact absurd he hfree

/-- The worker on thread 2 is about to take the first executor. -/
def opening : List (Action 3) := List.flatten [[.call (.submit first)], strides 0 2, strides 2 2]

/-- It runs for 35 ms. After 10 ms the second executor is submitted, and the third 20 ms later. -/
def longStay : List (Action 3) :=
  List.flatten [strides 2 8, [.advance 10000000, .call (.submit second)], strides 3 2,
    [.advance 20000000, .call (.submit third)], strides 4 2, [.advance 5000000, .work 2 (.finish .ok)], strides 2 4]

/-- It pays for 10 ms that it had to itself, for 20 ms shared by two, and for 5 ms shared by three. -/
theorem chargedOnce_longStay :
    (team 3).Along (fun s a => ∀ e, ¬s.Overflows a e) (opening ++ longStay ++ [.step 2]) ∧
      ((team 3).run opening).Stays 0 longStay ∧
      ((team 3).run (opening ++ longStay)).times 0 .settled <
        ((team 3).run (opening ++ longStay ++ [.step 2])).times 0 .settled ∧
      ((team 3).run (opening ++ longStay ++ [.step 2])).stretches 0 =
        [⟨0, 10000000, 1⟩, ⟨10000000, 30000000, 2⟩, ⟨30000000, 35000000, 3⟩] ∧
      ∃ paid, ((team 3).run opening).PaysFor 0 ((team 3).run (opening ++ longStay ++ [.step 2])) paid ∧
        Stretch.Tile paid ((team 3).run opening).now ((team 3).run (opening ++ longStay)).now := by
  have hfits : (team 3).Along (fun s a => ∀ e, ¬s.Overflows a e) (opening ++ longStay ++ [.step 2]) := by
    decide +kernel
  have hstay : ((team 3).run opening).Stays 0 longStay := ⟨by decide +kernel, by decide +kernel⟩
  have hend : ((team 3).run (opening ++ longStay)).times 0 .settled <
      ((team 3).run (opening ++ longStay ++ [.step 2])).times 0 .settled := by
    decide +kernel
  have hcharged := run_chargedOnce _ _ _ _ (opening ++ longStay ++ [.step 2]) hfits 0
  exact ⟨hfits, hstay, hend, by decide +kernel, hcharged.ended opening longStay (.step 2) [] rfl hstay hend⟩

end Pool

end FairShare.Scheduler
