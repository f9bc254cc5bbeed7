import FairShare.Proofs.Reach
import FairShare.Proofs.Vigil
import FairShare.Proofs.Watching

/-!
# What a check hits

Between the moment at which a check of the watchdog measures an overrun and the moments at which it does something about
it, everybody else goes on. The check raises the hard abort of the executor that it measured, whatever that does by then,
and interrupts the worker only while that runs the executor; but it takes from the worker whatever that runs. So the check
hits the slice that it measured as long as that has not ended: once the worker was found with the executor, it keeps the
slice until its own thread closes it, and then resets the timeout before it does anything else.
-/

namespace FairShare.Scheduler

variable {n : Nat}

/-- Whether an event is that the timeout of an executor was reset at the end of a stay. -/
def Event.resets (e : Fin n) : Event n → Bool
  | .timerReset e' _ => e' = e
  | _ => false

/-- How many stays of an executor have ended. -/
def Gear.ended (g : Gear n) (e : Fin n) : Nat := g.deeds.countP (Event.resets e)

theorem Goes.ended_le {b b' : Books n} {g g' : Gear n} {a : Action n} (hg : Goes b g a b' g') (e : Fin n) :
    g.ended e ≤ g'.ended e := by
  obtain ⟨deeds, hdeeds⟩ := hg.deeds
  unfold Gear.ended
  rw [hdeeds, List.countP_append]
  exact Nat.le_add_right ..

namespace Instr

/-- Whether an instruction belongs to a check of a worker which has measured the overrun of an executor. -/
@[simp] def pursues (w : WorkerId) (e : Fin n) : Instr n → Bool
  | .raise w' e' _ | .press w' e' _ | .report w' e' _ => w' = w && e' = e
  | .retire w' | .takeAbandoned w' => w' = w
  | .callHost _ _ | .writeReport _ _ _ | .resetTimer _ _ | .account _ _ | .warnAllocation _ _ _ | .settle _
  | .finishUnload _ | .announce _ | .decideRespawn _ | .vacate _ _ => true
  | _ => false

/-- Whether an instruction leads to taking the slice of a worker. -/
@[simp] def seizes (w : WorkerId) : Instr n → Bool
  | .retire w' | .takeAbandoned w' => w' = w
  | _ => false

variable {b b' : Books n} {g g' : Gear n} {i x : Instr n} {next : List (Instr n)} {w : WorkerId} {e : Fin n}

/-- A check goes on with what it measured. -/
theorem Leads.pursues (hl : i.Leads next) (hi : i.pursues w e = true) (hx : x ∈ next) : x.pursues w e = true := by
  cases hl.yields hx <;> simp_all

/-- A worker is retired by one instruction. -/
theorem Outcome.live_down (ho : Outcome b g i b' g' next) (h : b'.live[w]? = some false) :
    b.live[w]? = some false ∨ i = .retire w := by
  have hhired : (b.live ++ [true])[w]? = some false → b.live[w]? = some false := by
    intro hw
    rw [List.getElem?_append] at hw
    split at hw
    · exact hw
    · simp [List.getElem?_singleton] at hw
  cases ho
  case hire => exact Or.inl (hhired h)
  case replace => exact Or.inl (hhired h)
  case withdraw e' =>
    refine Or.inl ?_
    simp only [Books.mark] at h
    split at h <;> exact h
  case take htake => exact Or.inl (htake.staff.2.1 ▸ h)
  case close htake => exact Or.inl (htake.staff.2.1 ▸ h)
  case await htake => exact Or.inl (htake.staff.2.1 ▸ h)
  case retire w' hup =>
    by_cases hne : w' = w
    · exact Or.inr (hne ▸ rfl)
    · exact Or.inl (by rwa [List.getElem?_set_ne hne] at h)
  all_goals exact Or.inl h

end Instr

namespace Books

open Instr

variable {b b' : Books n} {g g' : Gear n} {a : Action n} {t : ThreadId} {i : Instr n} {front rest next : List (Instr n)}
  {w : WorkerId} {e : Fin n} {since : Nat}

/-- The thread of a worker that runs an executor has still to close the slice. -/
theorem Orderly.closes_in (ho : b.Orderly) (hcur : b.current[w]? = some (some e)) {code : List (Instr n)}
    (ht : b.codes[t]? = some code) (hnext : .nextSlice w ∈ code) : ∃ a, .closeSlice w e a ∈ code := by
  obtain ⟨t', code', a, ht', hclose, hnext'⟩ := ho.closer hcur
  obtain rfl := ho.thread_unique ht ht' hnext hnext'
  rw [ht] at ht'
  obtain rfl := Option.some.inj ht'
  exact ⟨a, hclose⟩

/-! ## A slice that goes on -/

/-- A worker runs an executor, or has just closed its slice and has still to reset the timeout. -/
def Held (b : Books n) (w : WorkerId) (e : Fin n) : Prop :=
  b.current[w]? = some (some e) ∨
    ∃ (t : ThreadId) (slice : SliceRecord), b.codes[t]? = some [Instr.resetTimer e slice, .nextSlice w]

/-- A worker that runs an executor comes to close the slice, unless a watchdog takes it. -/
theorem held_step (hcur : b.current[w]? = some (some e)) (ho : b.Orderly) (hf : b.Fitted) (hs : b.Staying)
    (ht : b.codes[t]? = some (i :: rest)) (he : i.Effect { b with codes := b.codes.set t rest } b' next)
    (hout : Outcome { b with codes := b.codes.set t rest } g i b' g' next)
    (htake : ∀ round, i :: rest = .takeAbandoned w :: .decideRespawn w :: round → ¬Round round) :
    ({ b' with codes := b'.codes.set t (next ++ rest) } : Books n).Held w e := by
  have hmem := List.mem_of_getElem? ht
  rcases hout.current_keep hcur with hkeep | hw | ⟨e', a, rfl⟩
  · exact Or.inl hkeep
  · cases i <;> simp only [withdraws, Bool.false_eq_true, decide_eq_true_eq] at hw
    case closeSlice w' e' a =>
      subst hw
      obtain rfl := ho.closes_own (mem_todo ht) hcur
      obtain rfl : rest = [.nextSlice w'] := (hf _ hmem).1
      have hself := codes_self ht he
      obtain ⟨-, ⟨e', slice, -, rfl⟩ | ⟨hnone, -⟩⟩ := he
      · exact Or.inr ⟨t, slice, hself⟩
      · exact absurd hcur (hnone e)
    case takeAbandoned w' =>
      subst hw
      rcases takes_of_staying hs hf (show [] ++ .takeAbandoned w' :: rest ∈ b.codes from hmem) with
        rfl | ⟨round, hround, rfl⟩
      · obtain ⟨a, hclose⟩ := ho.closes_in hcur ht (by simp)
        simp at hclose
      · exact absurd hround (htake round rfl)
  · obtain rfl : rest = [.nextSlice w] := (hf _ hmem).1
    obtain ⟨a', hclose⟩ := ho.closes_in hcur ht (by simp)
    simp at hclose

theorem Held.goes (h : b.Held w e) (ho : b.Orderly) (hf : b.Fitted) (hs : b.Staying) (hg : Goes b g a b' g')
    (htake : ∀ t round, a = .step t →
      b.codes[t]? = some (.takeAbandoned w :: .decideRespawn w :: round) → ¬Round round)
    (hended : g'.ended e = g.ended e) : b'.Held w e := by
  rcases h with hcur | ⟨t', slice, ht'⟩
  · cases hg with
    | step t i rest next b' g' ht hw he hl hd =>
      exact held_step hcur ho hf hs ht he (outcome hw he hl hd) fun round hcode => htake t round rfl (hcode ▸ ht)
    | _ => exact Or.inl hcur
  · by_cases ha : a = .step t'
    · subst ha
      cases hg with
      | rest => exact Or.inr ⟨t', slice, ht'⟩
      | step _ i rest next b' g' ht hw he hl hd =>
        rw [ht'] at ht
        cases ht
        obtain ⟨⟨elapsed, rfl⟩, -⟩ := hd
        -- The stay ends with this step.
        simp [Gear.ended, Gear.deed, Gear.onTimeout, Event.resets] at hended
      | tear _ e' o rest ht hfail =>
        rw [ht'] at ht
        cases ht
    · exact Or.inr ⟨t', slice, codes_keep hg ht' ha fun w' e' rest heq => by cases heq⟩

/-! ## Where a check stands -/

/-- A watchdog is in a check of a worker which measured the overrun of an executor when some stays of it had ended. -/
structure Pursues (b : Books n) (g : Gear n) (t : ThreadId) (w : WorkerId) (e : Fin n) (since : Nat)
    (front rest : List (Instr n)) : Prop where
  stands : b.codes[t]? = some (front ++ rest)
  round : Round rest
  check : ∀ i ∈ front, i.pursues w e = true
  began : since ≤ g.ended e
  /-- It takes the slice of the worker after it found the executor there. -/
  held : (∃ i ∈ front, i.seizes w = true) → g.ended e = since → b.Held w e

namespace Pursues

theorem not_work (h : b.Pursues g t w e since front rest) (w' : WorkerId) (e' : Fin n) (rest' : List (Instr n)) :
    front ++ rest ≠ .work w' e' :: rest' := by
  intro heq
  cases front with
  | nil =>
    have hi := isRound_of_round h.round (.work w' e') (by simp [show rest = _ from heq])
    cases hi
  | cons i front =>
    obtain ⟨rfl, -⟩ := List.cons.inj heq
    cases h.check _ (List.mem_cons_self ..)

/-- A check stands where it stood while others act, as there is no other watchdog. -/
theorem other (h : b.Pursues g t w e since front rest) (ho : b.Orderly) (hf : b.Fitted) (hs : b.Staying)
    (halone : ∀ t' code, b.codes[t']? = some code → code.any watches = true → t' = t) (ha : a ≠ .step t)
    (hg : Goes b g a b' g') : b'.Pursues g' t w e since front rest where
  stands := codes_keep hg h.stands ha h.not_work
  round := h.round
  check := h.check
  began := Nat.le_trans h.began (hg.ended_le e)
  held hseizes hended := by
    have hle := hg.ended_le e
    have hbegan := h.began
    refine (h.held hseizes (by omega)).goes ho hf hs hg (fun t' round ha' ht' hround => ?_) (by omega)
    obtain rfl := halone t' _ ht' (by simp [watches_of_round hround])
    exact ha ha'

/-- Whoever has taken the slice of a worker does not do so again in the same check. -/
theorem taken (h : b.Pursues g t w e since (.takeAbandoned w :: front) rest) (hf : b.Fitted) :
    ¬∃ i ∈ front, i.seizes w = true := by
  rintro ⟨x, hx, hseizes⟩
  obtain ⟨base, hbase, hrest⟩ := (hf _ (List.mem_of_getElem? h.stands)).1
  have hx : x ∈ Instr.decideRespawn w :: base := hrest ▸ List.mem_append_left rest hx
  rcases List.mem_cons.1 hx with rfl | hx
  · cases hseizes
  · rcases hbase with rfl | rfl | hround
    · cases hx
    · rw [List.mem_singleton.1 hx] at hseizes
      cases hseizes
    · have hi := isRound_of_round hround x hx
      cases x <;> first | cases hseizes | cases hi

theorem step (h : b.Pursues g t w e since (i :: front) rest) (ho : b.Orderly) (hf : b.Fitted) (hs : b.Staying)
    (hwork : ∀ w e, i ≠ .work w e) (he : i.Effect { b with codes := b.codes.set t (front ++ rest) } b' next)
    (hl : i.Leads next) (hd : i.Drive { b with codes := b.codes.set t (front ++ rest) } b' g g' next) :
    ({ b' with codes := b'.codes.set t (next ++ (front ++ rest)) } : Books n).Pursues g' t w e since (next ++ front)
      rest := by
  have hg : Goes b g (.step t) _ g' := .step t i (front ++ rest) next b' g' h.stands hwork he hl hd
  have hle := hg.ended_le e
  have hbegan := h.began
  refine ⟨by rw [List.append_assoc]; exact codes_self h.stands he, h.round, fun x hx => ?_, Nat.le_trans hbegan hle, ?_⟩
  · rcases List.mem_append.1 hx with hx | hx
    · exact hl.pursues (h.check i (List.mem_cons_self ..)) hx
    · exact h.check x (List.mem_cons_of_mem _ hx)
  · rintro ⟨x, hx, hseizes⟩ hended
    have hkeep : (∃ y ∈ i :: front, y.seizes w = true) → i ≠ .takeAbandoned w →
        ({ b' with codes := b'.codes.set t (next ++ (front ++ rest)) } : Books n).Held w e := by
      intro hy hi
      refine (h.held hy (by omega)).goes ho hf hs hg (fun t' round ha ht' hround => hi ?_) (by omega)
      cases ha
      rw [h.stands] at ht'
      exact (List.cons.inj (Option.some.inj ht')).1
    rcases List.mem_append.1 hx with hx | hx
    · cases hl.yields hx with
      | giveUp w' e' o =>
        obtain ⟨rfl, rfl⟩ : w' = w ∧ e' = e := by simpa using h.check _ (List.mem_cons_self ..)
        cases he
        simp only [Drive] at hd
        split at hd
        · rename_i hfound
          exact Or.inl hfound.2
        · rw [hd.2] at hx
          cases hx
      | takeAbandoned w' => exact hkeep ⟨_, List.mem_cons_self .., by simpa using hseizes⟩ (by simp)
      | dismiss | seekRetire | awaitRetire => cases h.check _ (List.mem_cons_self ..)
      | _ => cases hseizes
    · by_cases hi : i = .takeAbandoned w
      · subst hi
        exact absurd ⟨x, hx, hseizes⟩ (h.taken hf)
      · exact hkeep ⟨x, List.mem_cons_of_mem _ hx, hseizes⟩ hi

/-! ## What the next step of a check does -/

/-- What a check does next is what its next instruction does, unless it does nothing or is torn down. -/
theorem does (h : b.Pursues g t w e since (i :: front) rest) (hg : Goes b g (.step t) b' g') :
    (b'.live = b.live ∧ b'.current = b.current ∧ g' = g) ∨
      ∃ (c : Books n) (next : List (Instr n)), b'.live = c.live ∧ b'.current = c.current ∧
        i.Drive { b with codes := b.codes.set t (front ++ rest) } c g g' next ∧
        Outcome { b with codes := b.codes.set t (front ++ rest) } g i c g' next := by
  cases hg with
  | rest => exact Or.inl ⟨rfl, rfl, rfl⟩
  | tear => exact Or.inl ⟨rfl, rfl, rfl⟩
  | step _ j rest' next c g' ht hw he hl hd =>
    obtain ⟨rfl, rfl⟩ := List.cons.inj (Option.some.inj (h.stands.symm.trans ht))
    exact Or.inr ⟨c, next, rfl, rfl, hd, outcome hw he hl hd⟩

/-- A check aborts the executor that it measured. -/
theorem aborted (h : b.Pursues g t w e since (i :: front) rest) (hg : Goes b g (.step t) b' g') {e' : Fin n}
    (hdown : (g.timeout e').flags.hardAborted = false) (hup : (g'.timeout e').flags.hardAborted = true) : e' = e := by
  have hi := h.check i (List.mem_cons_self ..)
  rcases h.does hg with ⟨-, -, rfl⟩ | ⟨c, next, -, -, hd, -⟩
  · rw [hdown] at hup
    cases hup
  · have hr := hd.timeout e'
    generalize g'.timeout e' = x at hr hup
    cases hr with
    | keep => rw [hdown] at hup; cases hup
    | raise w' o => simp_all
    | reset => cases hup
    | refresh | arm | hardAbort | start | clear => cases hi

/-- A check interrupts the worker that it is about, while that runs the executor that it measured. -/
theorem interrupted (h : b.Pursues g t w e since (i :: front) rest) (hg : Goes b g (.step t) b' g') {w' : WorkerId}
    (hdown : g.interrupted[w']? ≠ some true) (hup : g'.interrupted[w']? = some true) :
    w' = w ∧ b.current[w]? = some (some e) := by
  rcases h.does hg with ⟨-, -, rfl⟩ | ⟨c, next, -, -, -, hout⟩
  · exact absurd hup hdown
  · rcases hout.interrupted hup with ⟨hold, -⟩ | ⟨e', o, rfl, -, hcur⟩
    · exact absurd hold hdown
    · obtain ⟨rfl, rfl⟩ : w' = w ∧ e' = e := by simpa using h.check _ (List.mem_cons_self ..)
      exact ⟨rfl, hcur⟩

/-- A check retires the worker that it is about. -/
theorem retired (h : b.Pursues g t w e since (i :: front) rest) (hg : Goes b g (.step t) b' g') {w' : WorkerId}
    (hup : b.live[w']? ≠ some false) (hdown : b'.live[w']? = some false) : w' = w := by
  rcases h.does hg with ⟨hlive, -, -⟩ | ⟨c, next, hlive, -, -, hout⟩
  · exact absurd (hlive ▸ hdown) hup
  · rcases hout.live_down (hlive ▸ hdown) with hold | rfl
    · exact absurd hold hup
    · simpa using h.check _ (List.mem_cons_self ..)

/-- A check takes the slice that it measured, if that has not ended. -/
theorem abandoned (h : b.Pursues g t w e since (i :: front) rest) (ho : b.Orderly) (hg : Goes b g (.step t) b' g')
    (hended : g.ended e = since) {w' : WorkerId} {e' : Fin n} (hcur : b.current[w']? = some (some e'))
    (hlost : b'.current[w']? ≠ some (some e')) : w' = w ∧ e' = e := by
  have hi := h.check i (List.mem_cons_self ..)
  rcases h.does hg with ⟨-, hkeep, -⟩ | ⟨c, next, -, hkeep, -, hout⟩
  · exact absurd hcur (hkeep ▸ hlost)
  · rw [hkeep] at hlost
    rcases hout.current_keep hcur with hkeep | hw | ⟨e₁, a, rfl⟩
    · exact absurd hkeep hlost
    · cases i <;> simp only [withdraws, Bool.false_eq_true, decide_eq_true_eq] at hw
      case closeSlice => cases hi
      case takeAbandoned w₁ =>
        obtain rfl : w₁ = w := by simpa using hi
        subst hw
        refine ⟨rfl, ?_⟩
        rcases h.held ⟨_, List.mem_cons_self .., by simp⟩ hended with hold | ⟨t', slice, ht'⟩
        · rw [hcur] at hold
          exact Option.some.inj (Option.some.inj hold)
        · obtain ⟨a, hclose⟩ := ho.closes_in hcur ht' (by simp)
          simp at hclose
    · cases hi

end Pursues

end Books

namespace Pool

open Instr

variable {s : Pool n} {t : ThreadId} {w : WorkerId} {e : Fin n}

/-- How many stays of an executor on a worker have ended. -/
def ended (s : Pool n) (e : Fin n) : Nat := s.history.toList.countP (Event.resets e)

theorem ended_gear (s : Pool n) (e : Fin n) : s.gear.ended e = s.ended e := by
  show (s.history.toList.filter Event.isDeed).countP _ = _
  rw [List.countP_filter]
  refine List.countP_congr fun v _ => ?_
  cases v <;> simp [Event.resets, Event.isDeed]

/-- Whether a watchdog is about to measure the overrun of an executor that it found on a worker. -/
def aboutToMeasure (s : Pool n) (t : ThreadId) (w : WorkerId) (e : Fin n) : Bool :=
  match s.code t with
  | .measure w' e' :: _ => w' = w && e' = e
  | _ => false

theorem code_of_aboutToMeasure (h : s.aboutToMeasure t w e = true) : ∃ rest, s.code t = .measure w e :: rest := by
  unfold aboutToMeasure at h
  split at h
  · rename_i w' e' rest hcode
    obtain ⟨rfl, rfl⟩ : w' = w ∧ e' = e := by simpa using h
    exact ⟨rest, hcode⟩
  · cases h

/-- What the next step of a check hits, seen from the moment at which the check measured an executor. -/
structure Precise (m s : Pool n) (t : ThreadId) (w : WorkerId) (e : Fin n) : Prop where
  /-- It aborts nobody else. -/
  aborted : ∀ e', (s.flags e').hardAborted = false → ((s.step t).flags e').hardAborted = true → e' = e
  /-- It interrupts no other worker, and not while that runs anybody else. -/
  interrupted : ∀ w', s.interrupted w' = false → (s.step t).interrupted w' = true → w' = w ∧ s.current? w = some e
  /-- It retires no other worker. -/
  retired : ∀ w', s.retired w' = false → (s.step t).retired w' = true → w' = w
  /-- It takes no slice but the one that was measured, as long as that has not ended. -/
  abandoned : s.ended e = m.ended e →
    ∀ w' e', s.current? w' = some e' → (s.step t).current? w' ≠ some e' → w' = w ∧ e' = e

/-- One watchdog does the checks, and whoever retires a worker has something to do after that. -/
structure Overseen (s : Pool n) : Prop extends s.Manning where
  vigilant : s.Vigilant
  dismissed : s.books.Dismissed
  staying : s.books.Staying

theorem Overseen.act (h : s.Overseen) (ho : s.books.Orderly) (a : Action n) : (s.act a).Overseen where
  toManning := h.toManning.act ho a
  vigilant := h.vigilant.act h.fitted a
  dismissed := h.dismissed.goes h.fitted (act_goes s a)
  staying := h.staying.goes h.dismissed (act_goes s a)

theorem create_overseen (config : SchedulerConfig) (context : Metrics.Context) (log : LogFilter) (hosts : Vector Host n) :
    (create config context log hosts).Overseen := by
  refine ⟨create_manning config context log hosts, create_vigilant config context log hosts, ?_, ?_⟩ <;>
    rw [books_create]
  · simp [Books.Dismissed, Books.start]
  · simp [Books.Staying, Books.start]

/-- A thread is in a check, or was torn down in it. -/
def Pursuing (s : Pool n) (t : ThreadId) (w : WorkerId) (e : Fin n) (since : Nat) (rest : List (Instr n)) : Prop :=
  s.books.codes[t]? = some [] ∨ ∃ front, s.books.Pursues s.gear t w e since front rest

theorem Pursuing.act {since : Nat} {rest : List (Instr n)} (h : s.Pursuing t w e since rest) (hs : s.Overseen)
    (ho : s.books.Orderly) {a : Action n} (ha : a.isStep t = true → rest.length < (s.code t).length) :
    (s.act a).Pursuing t w e since rest := by
  have hg := act_goes s a
  rcases h with hnil | ⟨front, h⟩
  · refine Or.inl (Books.codes_keep hg hnil (fun hstep => ?_) fun w e rest heq => by cases heq)
    have hlen := ha (Action.isStep_iff.2 hstep)
    simp [code_eq, hnil] at hlen
  · by_cases hstep : a = .step t
    · subst hstep
      have hlen := ha (Action.isStep_iff.2 rfl)
      rw [code_eq, h.stands] at hlen
      cases front with
      | nil => simp at hlen
      | cons i front =>
        have hmust : ∀ b' g', Goes s.books s.gear (.step t) b' g' →
            b'.codes[t]? = some [] ∨ ∃ front, b'.Pursues g' t w e since front rest := by
          intro b' g' hg
          cases hg with
          | rest => exact Or.inr ⟨_, h⟩
          | tear _ e' o rest' ht hfail =>
            exact Or.inl (List.getElem?_set_self (List.getElem?_eq_some_iff.1 ht).1)
          | step _ j rest' next b' g' ht hw he hl hd =>
            have hcode := Option.some.inj (h.stands.symm.trans ht)
            obtain ⟨rfl, rfl⟩ := List.cons.inj hcode
            exact Or.inr ⟨_, h.step ho hs.fitted hs.staying hw he hl hd⟩
        exact hmust _ _ hg
    · refine Or.inr ⟨front, h.other ho hs.fitted hs.staying (fun t' code ht' hwatch => ?_) hstep hg⟩
      have hdog : s.watchdog = some t := hs.vigilant.only t (by
        rw [code_eq, h.stands]
        simp [watches_of_round h.round])
      have hdog' : s.watchdog = some t' := hs.vigilant.only t' (by rw [code_eq, ht']; exact hwatch)
      exact Option.some.inj (hdog'.symm.trans hdog)

theorem interrupted_true : s.interrupted w = true ↔ s.gear.interrupted[w]? = some true := by
  rw [interrupted_eq]
  rcases s.gear.interrupted[w]? with _ | up
  · simp
  · cases up <;> simp

/-- What a check hits that measured an executor when as many stays of it had ended as in some state. -/
theorem precise_of_pursues {m : Pool n} {i : Instr n} {front rest : List (Instr n)} (ho : s.books.Orderly)
    (h : s.books.Pursues s.gear t w e (m.ended e) (i :: front) rest) : m.Precise s t w e where
  aborted _ hdown hup := h.aborted (act_goes s (.step t)) hdown hup
  interrupted w' hdown hup := by
    have hdown : s.gear.interrupted[w']? ≠ some true := fun h => by simp [interrupted_true.2 h] at hdown
    obtain ⟨hw, hcur⟩ := h.interrupted (act_goes s (.step t)) hdown (interrupted_true.1 hup)
    exact ⟨hw, (current_eq s w e).1 hcur⟩
  retired w' hup hdown := by
    have hup : s.books.live[w']? ≠ some false := fun h => by simp [retired_true.2 h] at hup
    exact h.retired (act_goes s (.step t)) hup (retired_true.1 hdown)
  abandoned hended w' e' hcur hlost :=
    h.abandoned ho (act_goes s (.step t)) ((ended_gear s e).trans hended) ((current_eq s w' e').2 hcur)
      fun hkept => hlost ((current_eq (s.step t) w' e').1 hkept)

theorem Pursuing.precise {m : Pool n} {rest : List (Instr n)} (h : s.Pursuing t w e (m.ended e) rest)
    (ho : s.books.Orderly) (hlen : rest.length < (s.code t).length) : m.Precise s t w e := by
  rcases h with hnil | ⟨front, h⟩
  · simp [code_eq, hnil] at hlen
  · cases front with
    | nil => simp [code_eq, h.stands] at hlen
    | cons i front => exact precise_of_pursues ho h

/-- Whether a thread that acts is still in the check that it was in at one moment: it has more to do than after that. -/
def InCheck (m : Pool n) (t : ThreadId) (s : Pool n) (a : Action n) : Prop :=
  a.isStep t = true → (m.code t).length ≤ (s.code t).length

instance (m : Pool n) (t : ThreadId) (s : Pool n) (a : Action n) : Decidable (m.InCheck t s a) :=
  inferInstanceAs (Decidable (_ → _))

/-- A check begins to act on what it measured. -/
theorem pursuing_of_measure {rest : List (Instr n)} (hf : s.books.Fitted) (hcode : s.code t = .measure w e :: rest) :
    (s.step t).Pursuing t w e (s.ended e) rest := by
  have ht := codes_of_code hcode
  rcases step_goes s t hcode rfl with ⟨next, b', g', he, hl, hd, hb, hg⟩ | ⟨e', o, hi, -⟩
  · refine Or.inr ⟨next, ?_⟩
    obtain ⟨rfl, -⟩ := hd
    rw [hb, hg]
    refine ⟨Books.codes_self ht he, (hf _ (List.mem_of_getElem? ht)).1, fun x hx => ?_, ?_, ?_⟩
    · rcases hl with rfl | ⟨o, rfl⟩
      · cases hx
      · simp [List.mem_singleton.1 hx]
    · rw [ended_gear]
    · rintro ⟨x, hx, hseizes⟩
      rcases hl with rfl | ⟨o, rfl⟩
      · cases hx
      · rw [List.mem_singleton.1 hx] at hseizes
        cases hseizes
  · cases hi

/-- Whatever a check of the watchdog does after it measured an overrun, at any of its steps and whatever others do in
between, it does to the executor and the worker that it is about; and as long as the slice that it measured has not ended,
it takes no other. -/
theorem run_precise (config : SchedulerConfig) (context : Metrics.Context) (log : LogFilter) (hosts : Vector Host n)
    (before after : List (Action n)) {t : ThreadId} {w : WorkerId} {e : Fin n}
    (hmeasure : ((create config context log hosts).run before).aboutToMeasure t w e = true)
    (hcheck : ((create config context log hosts).run (before ++ [.step t])).Along
      (((create config context log hosts).run before).InCheck t) (after ++ [.step t])) :
    ((create config context log hosts).run before).Precise
      ((create config context log hosts).run (before ++ .step t :: after)) t w e := by
  have ho := run_orderly config context log hosts before
  have hp := run_placed config context log hosts before
  have hs := run_created (R := fun _ _ => True) (fun s a ho _ h _ => Overseen.act h ho a)
    (create_overseen config context log hosts) (along_true _ before)
  rw [run_append] at hcheck ⊢
  generalize (create config context log hosts).run before = m at hmeasure hcheck ho hp hs ⊢
  obtain ⟨rest, hcode⟩ := code_of_aboutToMeasure hmeasure
  have hlen : ∀ s a, m.InCheck t s a → a.isStep t = true → rest.length < (s.code t).length := by
    intro s a h hstep
    have hle := h hstep
    rwa [hcode, List.length_cons] at hle
  have hmoves := act_moves m (.step t)
  have ho' := ho.moves hmoves
  have hp' := fun e => (hp e).move (hmoves.account ho e)
  obtain ⟨hafter, hlast, -⟩ := along_append.1 hcheck
  have hrun := run_along (R := m.InCheck t) (P := fun s => s.Overseen ∧ s.Pursuing t w e (m.ended e) rest)
    (fun s a ho _ h ha => ⟨h.1.act ho a, h.2.act h.1 ho (hlen s a ha)⟩) ho' hp'
    ⟨hs.act ho (.step t), pursuing_of_measure hs.fitted hcode⟩ hafter
  have ho'' := run_along (R := m.InCheck t) (P := fun s => s.books.Orderly) (fun s a ho _ _ _ => ho.moves (act_moves s a))
    ho' hp' ho' hafter
  exact hrun.2.precise ho'' (hlen _ _ hlast (Action.isStep_iff.2 rfl))

/-! ## A check that hits what it measured, and three that do not -/

/-- The work has gone on for 20 s and has submitted its executor again, and thread 1 is about to measure it. -/
def measureDue : List (Action 1) :=
  begun ++ [.work 2 (.call (.submit only)), .step 2] ++ steps 1 3 ++ .advance 20000000000 :: steps 1 4

theorem precise_measureDue :
    (lone.run measureDue).aboutToMeasure 1 0 only = true ∧
      (lone.run (measureDue ++ [.step 1])).Along ((lone.run measureDue).InCheck 1) (steps 1 5 ++ [.step 1]) ∧
      (lone.run (measureDue ++ .step 1 :: steps 1 5)).ended only = (lone.run measureDue).ended only ∧
      (lone.run (measureDue ++ .step 1 :: steps 1 5)).current? 0 = some only ∧
      ((lone.run (measureDue ++ .step 1 :: steps 1 5)).step 1).current? 0 = none ∧
      (lone.run measureDue).Precise (lone.run (measureDue ++ .step 1 :: steps 1 5)) 1 0 only := by
  have hmeasure : (lone.run measureDue).aboutToMeasure 1 0 only = true := by decide +kernel
  have hcheck : (lone.run (measureDue ++ [.step 1])).Along ((lone.run measureDue).InCheck 1) (steps 1 5 ++ [.step 1]) := by
    decide +kernel
  exact ⟨hmeasure, hcheck, by decide +kernel, by decide +kernel, by decide +kernel,
    run_precise _ _ _ _ measureDue (steps 1 5) hmeasure hcheck⟩

/-- The work returns, and the worker begins the next slice of the executor. -/
def nextBegins : List (Action 1) := .work 2 (.finish .ok) :: steps 2 14

/-- The first executor has run for 20 s on the only worker, the second waits, and thread 1 is about to measure the
first. -/
def firstMeasured : List (Action 2) := bothSubmitted ++ paces 1 3 ++ .advance 20000000000 :: paces 1 4

/-- The work of the first returns while the host is asked what that is doing, and the second begins. -/
def secondBegins : List (Action 2) := paces 1 5 ++ .work 2 (.finish .ok) :: paces 2 14

/-- A scheduler with one worker and two executors, and with a log that keeps warnings. -/
def warned : Pool 2 := create { workerCount := 1 } lone.context (some .warn) both

/-- The hard abort hits the next slice of the executor if the one that was measured ends before the abort is raised, and
so does the interrupt. Another executor that the worker has begun to run when the report is done is taken from it, and the
worker is retired. None of the three is over its budget. -/
theorem later_slices_are_hit :
    ((lone.run measureDue).aboutToMeasure 1 0 only = true ∧ (lone.run measureDue).ended only = 0) ∧
    ((lone.run (measureDue ++ steps 1 1 ++ nextBegins)).ended only = 1 ∧
      (lone.run (measureDue ++ steps 1 1 ++ nextBegins)).atWork 2 0 only = true ∧
      (lone.run (measureDue ++ steps 1 1 ++ nextBegins)).overrun only = 0 ∧
      ((lone.run (measureDue ++ steps 1 1 ++ nextBegins)).flags only).hardAborted = false ∧
      ((lone.run (measureDue ++ steps 1 1 ++ nextBegins ++ steps 1 1)).flags only).hardAborted = true) ∧
    ((lone.run (measureDue ++ steps 1 3 ++ nextBegins)).ended only = 1 ∧
      (lone.run (measureDue ++ steps 1 3 ++ nextBegins)).atWork 2 0 only = true ∧
      (lone.run (measureDue ++ steps 1 3 ++ nextBegins)).overrun only = 0 ∧
      (lone.run (measureDue ++ steps 1 3 ++ nextBegins)).interrupted 0 = false ∧
      (lone.run (measureDue ++ steps 1 3 ++ nextBegins ++ steps 1 1)).interrupted 0 = true) ∧
    (warned.run firstMeasured).aboutToMeasure 1 0 first = true ∧
      (warned.run (firstMeasured ++ secondBegins)).atWork 2 0 second = true ∧
      (warned.run (firstMeasured ++ secondBegins)).overrun second = 0 ∧
      (warned.run (firstMeasured ++ secondBegins)).current? 0 = some second ∧
      (warned.run (firstMeasured ++ secondBegins)).retired 0 = false ∧
      (warned.run (firstMeasured ++ secondBegins ++ paces 1 3)).current? 0 = none ∧
      (warned.run (firstMeasured ++ secondBegins ++ paces 1 3)).retired 0 = true ∧
      (warned.run (firstMeasured ++ secondBegins ++ paces 1 3)).atWork 2 0 second = true := by
  refine ⟨⟨?_, ?_⟩, ⟨?_, ?_, ?_, ?_, ?_⟩, ⟨?_, ?_, ?_, ?_, ?_⟩, ?_, ?_, ?_, ?_, ?_, ?_, ?_, ?_⟩ <;>
    decide +kernel

end Pool

end FairShare.Scheduler
