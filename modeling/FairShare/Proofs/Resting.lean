import FairShare.Proofs.Aim
import FairShare.Proofs.Escalation

/-!
# Between slices

The timeout of an executor is as new between its slices. The end of a slice resets it, and it stays so until a worker
starts the clock of the next slice, unless somebody arms its budget, raises its hard abort or starts its clock. Checks
leave it alone, as they are aimed at slices that workers run.
-/

namespace FairShare

namespace TimeoutState

/-- A timeout outside any slice, with no flag up and the configured budget. -/
structure Fresh (x : TimeoutState) : Prop where
  flags : x.flags = {}
  start : x.clock.start = none
  budget : x.clock.budget = x.config.timeout

theorem fresh_create (config : TimeoutConfig) (now : Instant) : (create config now).Fresh := ⟨rfl, rfl, rfl⟩

theorem fresh_reset (x : TimeoutState) : x.reset.Fresh := ⟨rfl, rfl, rfl⟩

end TimeoutState

namespace Scheduler

variable {n : Nat}

namespace Instr

/-- Whether an instruction begins a slice of an executor, or comes after the end of one. -/
@[simp] def rests (e : Fin n) : Instr n → Bool
  | .openSlice _ e' | .settle e' => e' = e
  | _ => false

theorem eq_of_rests {e : Fin n} {i : Instr n} (h : i.rests e = true) : (∃ w, i = .openSlice w e) ∨ i = .settle e := by
  cases i <;> simp_all

/-- A slice that is opened is a stay of its own. -/
theorem countP_rests_le (w : WorkerId) (e : Fin n) (l : List (Instr n)) :
    l.countP (rests e) + l.countP (prepares w e) ≤ l.countP (stays e) := by
  induction l with
  | nil => exact Nat.le_refl 0
  | cons i l ih =>
    have hi : (if rests e i then 1 else 0) + (if prepares w e i then 1 else 0) ≤ if stays e i then 1 else 0 := by
      cases i <;> simp <;> grind
    rw [List.countP_cons, List.countP_cons, List.countP_cons]
    omega

theorem prepares_le_stays (w : WorkerId) (e : Fin n) (l : List (Instr n)) :
    l.countP (prepares w e) ≤ l.countP (stays e) :=
  Nat.le_trans (Nat.le_add_left ..) (countP_rests_le w e l)

theorem Retimes.config {b : Books n} {g : Gear n} {e : Fin n} {i : Instr n} {x : TimeoutState}
    (h : Retimes b g e i x) : x.config = (g.timeout e).config := by
  cases h <;> rfl

end Instr

namespace Books

open Instr

variable {b b' : Books n} {g g' : Gear n} {a : Action n} {e : Fin n}

/-- The timeout of an executor changes by the step of a thread. -/
theorem timeout_goes (hg : Goes b g a b' g') (e : Fin n) :
    g'.timeout e = g.timeout e ∨ ∃ (t : ThreadId) (i : Instr n) (rest : List (Instr n)), a = .step t ∧
      b.codes[t]? = some (i :: rest) ∧ Retimes { b with codes := b.codes.set t rest } g e i (g'.timeout e) := by
  cases hg with
  | step t i rest next b' g' ht hw he hl hd => exact Or.inr ⟨t, i, rest, rfl, ht, hd.timeout e⟩
  | _ => exact Or.inl rfl

/-- Somebody has something to do after an action because he had it to do before, because he begins with it, or because
what he did leads to it. -/
theorem mem_todo_goes (hg : Goes b g a b' g') {x : Instr n} (hx : x ∈ b'.todo) :
    x ∈ b.todo ∨ (∃ code, Begins code ∧ x ∈ code) ∨ (∃ c, x = .call c) ∨ (∃ w e, (Instr.work w e).Yields x) ∨
      ∃ (t : ThreadId) (i : Instr n) (rest next : List (Instr n)) (c : Books n), b.codes[t]? = some (i :: rest) ∧
        i.Yields x ∧ x ∈ next ∧ Outcome { b with codes := b.codes.set t rest } g i c g' next ∧
        b' = { c with codes := c.codes.set t (next ++ rest) } := by
  obtain ⟨code, hc, hmem⟩ := List.mem_flatten.1 hx
  rcases mem_codes_goes hg hc with hc | hbegins | ⟨c, rfl⟩ | rfl | ⟨t, i, rest, next, ht, hl, rfl, hi⟩
  · exact Or.inl (List.mem_flatten.2 ⟨code, hc, hmem⟩)
  · exact Or.inr (Or.inl ⟨code, hbegins, hmem⟩)
  · exact Or.inr (Or.inr (Or.inl ⟨c, List.mem_singleton.1 hmem⟩))
  · cases hmem
  · rcases List.mem_append.1 hmem with hmem | hmem
    · refine Or.inr (Or.inr (Or.inr ?_))
      rcases hi with ⟨w, e, rfl⟩ | ⟨c, hout, hb⟩
      · exact Or.inl ⟨w, e, hl.yields hmem⟩
      · exact Or.inr ⟨t, i, rest, next, c, ht, hl.yields hmem, hmem, hout, hb⟩
    · exact Or.inl (List.mem_flatten.2 ⟨_, List.mem_of_getElem? ht, List.mem_cons_of_mem _ hmem⟩)

/-! ## Between slices -/

/-- No clock of a slice of an executor was started that was not reset since. -/
inductive Resting (b : Books n) (e : Fin n) : Prop where
  /-- It is on no worker. -/
  | away (h : b.running.count e = 0)
  /-- A worker is about to begin its slice, or its slice has ended. -/
  | idle (h : 0 < b.todo.countP (rests e))
  /-- A worker has begun its slice, but not started the clock. -/
  | opening (code : List (Instr n)) (hc : code ∈ b.codes) (w : WorkerId) (h : Opening w e false code)

theorem Resting.not_current (h : b.Resting e) (hp : (b.account e).Placed) (w : WorkerId) :
    b.current[w]? ≠ some (some e) := by
  intro hcur
  have hpos : 0 < b.current.count (some e) := List.count_pos_iff.2 (List.mem_of_getElem? hcur)
  have hstay := stays_le_running hp
  have hone := running_le_one hp
  cases h with
  | away hz => omega
  | idle hidle =>
    have := countP_rests_le w e b.todo
    omega
  | opening code hc w' hopen =>
    obtain ⟨x, hx, hprepares⟩ := hopen.prepares
    have hprep : 0 < b.todo.countP (prepares w' e) := List.countP_pos_iff.2 ⟨x, List.mem_flatten.2 ⟨code, hc, hx⟩, hprepares⟩
    have := prepares_le_stays w' e b.todo
    omega

/-- The clock of the slice that a worker opens has not been started. -/
theorem Resting.not_begun (h : b.Resting e) (hp : (b.account e).Placed) {code : List (Instr n)} (hc : code ∈ b.codes)
    {w : WorkerId} (hopen : Opening w e true code) : False := by
  have hstay := stays_le_running hp
  have hone := running_le_one hp
  have hprep : ∀ {w : WorkerId} {begun : Bool} {code : List (Instr n)}, Opening w e begun code →
      0 < code.countP (prepares w e) := by
    intro w begun code hopen
    obtain ⟨x, hx, hprepares⟩ := hopen.prepares
    exact List.countP_pos_iff.2 ⟨x, hx, hprepares⟩
  have hle : code.countP (prepares w e) ≤ b.todo.countP (prepares w e) := (List.sublist_flatten_of_mem hc).countP_le
  have hpos := hprep hopen
  cases h with
  | away hz =>
    have := prepares_le_stays w e b.todo
    omega
  | idle hidle =>
    have := countP_rests_le w e b.todo
    omega
  | opening code' hc' w' hopen' =>
    obtain ⟨t, ht⟩ := List.getElem?_of_mem hc
    obtain ⟨t', ht'⟩ := List.getElem?_of_mem hc'
    by_cases hne : t = t'
    · subst hne
      rw [ht] at ht'
      obtain rfl := Option.some.inj ht'
      cases hopen <;> cases hopen'
    · have htwo := countP_two (stays e) hne ht ht'
      have h1 := prepares_le_stays w e code
      have h2 := prepares_le_stays w' e code'
      have hpos' := hprep hopen'
      omega

theorem rests_begins {code : List (Instr n)} (h : Begins code) : code.countP (rests e) = 0 := by
  rcases h with ⟨w, rfl⟩ | rfl <;> simp

/-- Whoever is on no worker was on none before, or its stay has just ended. -/
theorem Resting.of_away (hg : Goes b g a b' g') (h : b'.running.count e = 0) : b.Resting e := by
  cases hg with
  | step t i rest next b' g' ht hw he hl hd =>
    rcases running_of_effect he with ⟨taken, hrun⟩ | ⟨e', rfl, hrun⟩
    · have h : b'.running.count e = 0 := h
      rw [hrun, List.count_append] at h
      exact .away (Nat.eq_zero_of_add_eq_zero_right h)
    · by_cases hne : e' = e
      · subst hne
        exact .idle (List.countP_pos_iff.2 ⟨_, mem_todo ht, by simp⟩)
      · have h : b'.running.count e = 0 := h
        rw [hrun, List.count_filter (by simpa using Ne.symm hne)] at h
        exact .away h
  | _ => exact .away h

/-- An executor comes to rest when its timeout is reset. -/
theorem Resting.before (h : b'.Resting e) (haimed : b.Aimed g) (hf : b.Fitted) (hp' : (b'.account e).Placed)
    (hg : Goes b g a b' g') : b.Resting e ∨ (g'.timeout e).Fresh := by
  cases h with
  | away hz => exact Or.inl (.of_away hg hz)
  | idle hidle =>
    obtain ⟨x, hx, hrests⟩ := List.countP_pos_iff.1 hidle
    rcases mem_todo_goes hg hx with hold | ⟨code, hbegins, hmem⟩ | ⟨c, rfl⟩ | ⟨w, e', hy⟩ |
      ⟨t, i, rest, next, c, ht, hy, hmem, hout, rfl⟩
    · exact Or.inl (.idle (List.countP_pos_iff.2 ⟨x, hold, hrests⟩))
    · exact absurd hrests (List.countP_eq_zero.1 (rests_begins hbegins) x hmem)
    · cases hrests
    · cases hy <;> cases hrests
    · rcases eq_of_rests hrests with ⟨w, rfl⟩ | rfl
      · -- A worker that takes the executor finds it in the run queue, so no other worker has it.
        have htakes : Takes { b with codes := b.codes.set t rest } c (some e) := by
          cases hy <;> cases hout with
          | take _ _ e' _ _ htake _ =>
            obtain rfl : e = e' := by simp_all
            exact htake
          | close => simp at hmem
          | await => simp at hmem
        have hone := running_le_one hp'
        cases htakes with
        | found skipped head rest' faults hq hs hfaults hh =>
          refine Or.inl (.away ?_)
          simp only [mark, setStage, List.count_append, List.count_singleton_self] at hone
          omega
      · cases hy
        cases hout with
        | reset _ slice elapsed accounts ha hnever =>
          refine Or.inr ?_
          show (if e = e then (g.timeout e).reset else g.timeout e).Fresh
          rw [if_pos rfl]
          exact TimeoutState.fresh_reset _
        | take _ _ _ _ _ _ hi => rcases hi with ⟨hi, -⟩ | ⟨hi, -⟩ <;> cases hi
        | close _ _ _ _ _ _ hi => rcases hi with ⟨hi, -⟩ | ⟨hi, -⟩ <;> cases hi
        | await _ _ _ _ _ _ hi => rcases hi with ⟨hi, -⟩ | ⟨hi, -⟩ <;> cases hi
  | opening code hc w hopen =>
    refine Or.inl ?_
    rcases mem_codes_goes hg hc with hold | hbegins | ⟨c, rfl⟩ | rfl | ⟨t, i, rest, next, ht, hl, rfl, -⟩
    · exact .opening code hold w hopen
    · obtain ⟨x, hx, hp⟩ := hopen.prepares
      rw [hbegins.not_prepares hx] at hp
      cases hp
    · cases hopen
    · cases hopen
    · rcases haimed.opening_before hf ht hl hopen with ⟨rfl, -⟩ | ⟨begun, hbefore, hbegun, -⟩
      · exact .idle (List.countP_pos_iff.2 ⟨_, mem_todo ht, by simp⟩)
      · obtain rfl : begun = false := by simpa using hbegun
        exact .opening _ (List.mem_of_getElem? ht) w hbefore

/-- Nobody arms the budget of an executor, raises its hard abort or starts its clock, besides a worker that opens a slice
of it and a watchdog that finds it past its budget. -/
def Undisturbed (b : Books n) (e : Fin n) (a : Action n) : Prop :=
  ∀ (t : ThreadId) (i : Instr n) (rest : List (Instr n)), a = .step t → b.codes[t]? = some (i :: rest) →
    (∀ budget, i ≠ .call (.arm e budget)) ∧ i ≠ .call (.hardAbort e) ∧
      (i = .call (.startTimer e) → ∃ w, Opening w e false (i :: rest))

/-- The timeout of an executor is as new while the executor rests. -/
structure Rested (b : Books n) (g : Gear n) (e : Fin n) : Prop where
  settings : (g.timeout e).config = g.config.timeouts
  fresh : b.Resting e → (g.timeout e).Fresh

/-- The settings of a timeout stay as they are. -/
theorem settings_goes (h : (g.timeout e).config = g.config.timeouts) (hg : Goes b g a b' g') :
    (g'.timeout e).config = g'.config.timeouts := by
  rw [Pool.config_goes hg, ← h]
  rcases timeout_goes hg e with hkeep | ⟨t, i, rest, -, -, hr⟩
  · rw [hkeep]
  · exact hr.config

theorem Rested.goes (h : b.Rested g e) (haimed : b.Aimed g) (hf : b.Fitted) (hp : (b.account e).Placed)
    (hp' : (b'.account e).Placed) (hcalm : b.Undisturbed e a) (hg : Goes b g a b' g') : b'.Rested g' e := by
  refine ⟨settings_goes h.settings hg, fun hrest => ?_⟩
  rcases hrest.before haimed hf hp' hg with hbefore | hfresh
  · have hfresh := h.fresh hbefore
    cases hg with
    | step t i rest next b' g' ht hw he hl hd =>
      obtain ⟨harm, habort, hstart⟩ := hcalm t i rest rfl ht
      have hr := hd.timeout e
      generalize g'.timeout e = x at hr
      cases hr with
      | keep => exact hfresh
      | refresh share => rwa [TimeoutState.refresh_of_none _ _ _ hfresh.start]
      | arm budget => exact absurd rfl (harm budget)
      | hardAbort => exact absurd rfl habort
      | raise w o =>
        have haims : 0 < b.todo.countP (aims w e) := List.countP_pos_iff.2 ⟨_, mem_todo ht, by simp⟩
        exact absurd (haimed.current w e haims) (hbefore.not_current hp w)
      | start =>
        obtain ⟨w, hopen⟩ := hstart rfl
        cases hopen
        cases hl
        exact absurd .refresh (hrest.not_begun (w := w) hp' (List.mem_of_getElem? (codes_self ht he)))
      | clear => exact TimeoutState.fresh_reset _
      | reset slice => exact TimeoutState.fresh_reset _
    | _ => exact hfresh
  · exact hfresh

end Books

namespace Pool

open Instr

variable {s : Pool n} {a : Action n} {t : ThreadId} {w : WorkerId} {e : Fin n}

/-- Whether an action resets the timeout of an executor at the end of a slice. -/
def ends (s : Pool n) (e : Fin n) : Action n → Bool
  | .step t =>
    match s.code t with
    | .resetTimer e' _ :: _ => e' = e
    | _ => false
  | _ => false

/-- Whether an action arms the budget of an executor, or raises its hard abort, other than in a check. -/
def rearms (s : Pool n) (e : Fin n) : Action n → Bool
  | .step t =>
    match s.code t with
    | .call (.arm e' _) :: _ | .call (.hardAbort e') :: _ => e' = e
    | _ => false
  | _ => false

/-- Whether an action starts the clock of an executor, other than for a slice that a worker opens. -/
def restarts (s : Pool n) (e : Fin n) : Action n → Bool
  | .step t =>
    match s.code t with
    | .call (.startTimer _) :: .noteAllocated _ _ :: _ => false
    | .call (.startTimer e') :: _ => e' = e
    | _ => false
  | _ => false

/-- Whether an action does any of that. -/
def disturbs (s : Pool n) (e : Fin n) (a : Action n) : Bool := s.rearms e a || s.restarts e a

theorem books_undisturbed (h : s.disturbs e a = false) (haimed : s.books.Aimed s.gear) : s.books.Undisturbed e a := by
  rintro t i rest rfl ht
  have hcode : s.code t = i :: rest := by rw [code_eq, ht]; rfl
  obtain ⟨harm, hstart⟩ := Bool.or_eq_false_iff.1 h
  unfold rearms at harm
  unfold restarts at hstart
  simp only [hcode] at harm hstart
  refine ⟨?_, ?_, ?_⟩
  · rintro budget rfl
    simp at harm
  · rintro rfl
    simp at harm
  · rintro rfl
    split at hstart
    · next e' w e'' rest' heq =>
      obtain ⟨he, rfl⟩ := List.cons.inj heq
      obtain ⟨begun, hopen⟩ := haimed.opening _ (List.mem_of_getElem? ht) (.noteAllocated w e'') (by simp) w e'' (by simp)
      cases hopen
      exact ⟨w, .start⟩
    all_goals simp_all

/-- The timeout of an executor whose slice has ended is as new, and the executor rests. -/
theorem act_of_ends (h : s.ends e a = true) : (s.act a).books.Resting e ∧ ((s.act a).gear.timeout e).Fresh := by
  cases a with
  | step t =>
    unfold ends at h
    simp only at h
    split at h
    · next e' slice rest hcode =>
      obtain rfl : e' = e := by simpa using h
      show (s.step t).books.Resting e' ∧ ((s.step t).gear.timeout e').Fresh
      rcases step_goes s t hcode rfl with ⟨next, b', g', he, ⟨accounts, -, rfl⟩, ⟨⟨elapsed, rfl⟩, -⟩, hb, hg⟩ | ⟨e, o, hi, -⟩
      · rw [hb, hg]
        refine ⟨.idle (List.countP_pos_iff.2 ⟨.settle e', ?_, by simp⟩), ?_⟩
        · have hself := Books.codes_self (codes_of_code hcode) he
          exact List.mem_flatten.2 ⟨_, List.mem_of_getElem? hself, by simp⟩
        · show (if e' = e' then (s.gear.timeout e').reset else s.gear.timeout e').Fresh
          rw [if_pos rfl]
          exact TimeoutState.fresh_reset _
      · cases hi
    · cases h
  | _ => cases h

/-- What holds of a scheduler in which no slice ends in the middle of a check, and nobody disturbs an executor since a
slice of it ended. -/
structure Poised (s : Pool n) (e : Fin n) : Prop where
  orderly : s.books.Orderly
  placed : ∀ e, (s.books.account e).Placed
  fitted : s.books.Fitted
  aimed : s.books.Aimed s.gear
  rested : s.books.Rested s.gear e

theorem Poised.act (h : s.Poised e) (hapart : s.apart a = true) (hcalm : s.disturbs e a = false) :
    (s.act a).Poised e := by
  have hg := act_goes s a
  have hplaced : ∀ e, ((s.act a).books.account e).Placed :=
    fun e => (h.placed e).move ((act_moves s a).account h.orderly e)
  exact ⟨h.orderly.moves (act_moves s a), hplaced, h.fitted.goes hg,
    h.aimed.goes h.orderly h.fitted (books_apart hapart) hg,
    h.rested.goes h.aimed h.fitted (h.placed e) (hplaced e) (books_undisturbed hcalm h.aimed) hg⟩

/-- Before anything has happened, and whenever the slice of an executor has ended, its timeout is as new. -/
theorem run_poised (config : SchedulerConfig) (context : Metrics.Context) (log : LogFilter) (hosts : Vector Host n)
    {before : List (Action n)} (h : (create config context log hosts).Along (fun s a => s.apart a) before)
    (hended : before = [] ∨ ∃ earlier a, before = earlier ++ [a] ∧
      ((create config context log hosts).run earlier).ends e a = true) :
    ((create config context log hosts).run before).Poised e ∧
      ((create config context log hosts).run before).books.Resting e := by
  have hset : ∀ l : List (Action n), (((create config context log hosts).run l).gear.timeout e).config =
      ((create config context log hosts).run l).gear.config.timeouts := by
    intro l
    refine run_created (R := fun _ _ => True) (P := fun s => (s.gear.timeout e).config = s.gear.config.timeouts)
      (fun s a _ _ hs _ => Books.settings_goes hs (act_goes s a)) ?_ (along_true _ l)
    simp [create, gear, executor, Executor.create, TimeoutState.create]
  have hrest : ((create config context log hosts).run before).books.Resting e ∧
      (((create config context log hosts).run before).gear.timeout e).Fresh := by
    rcases hended with rfl | ⟨earlier, a, rfl, hends⟩
    · refine ⟨.away ?_, ?_⟩
      · show (create config context log hosts).running.count e = 0
        rfl
      · show ((create config context log hosts).executor e).timeout.Fresh
        simp [create, executor, Executor.create, TimeoutState.fresh_create]
    · rw [run_append]
      exact act_of_ends hends
  obtain ⟨hf, haimed⟩ := run_aimed config context log hosts h
  exact ⟨⟨run_orderly config context log hosts before, run_placed config context log hosts before, hf, haimed,
    ⟨hset before, fun _ => hrest.2⟩⟩, hrest.1⟩

end Pool

end Scheduler

end FairShare
