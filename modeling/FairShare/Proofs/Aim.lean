import FairShare.Proofs.Checking
import FairShare.Proofs.Draining

/-!
# What a check is aimed at

A check that is under way is aimed at the executor whose slice it found on the worker. If no slice ends in the middle of
a check of its worker, the worker runs that slice for as long as the check goes on. A thread that opens a slice takes
the interrupt of its worker back before it starts the clock, and the interrupt stays down until the slice is published,
as a worker is interrupted only for a slice that it runs.
-/

namespace FairShare.Scheduler

variable {n : Nat}

namespace Instr

/-- Whether an instruction belongs to a check of a worker which found the slice of an executor there. -/
@[simp] def aims (w : WorkerId) (e : Fin n) : Instr n → Bool
  | .measure w' e' | .raise w' e' _ | .press w' e' _ => w' = w && e' = e
  | _ => false

/-- Whether an instruction belongs to a check of a worker which found a slice there. -/
@[simp] def probes (w : WorkerId) : Instr n → Bool
  | .measure w' _ | .raise w' _ _ | .press w' _ _ => w' = w
  | _ => false

/-- What a thread has to do that opens the slice of an executor on a worker; whether it has started the clock. -/
inductive Opening (w : WorkerId) (e : Fin n) : Bool → List (Instr n) → Prop where
  | clear : Opening w e false [.clearInterrupt w, .call (.startTimer e), .noteAllocated w e, .nextSlice w]
  | start : Opening w e false [.call (.startTimer e), .noteAllocated w e, .nextSlice w]
  | refresh : Opening w e true [.call (.refresh e), .noteAllocated w e, .nextSlice w]
  | note : Opening w e true [.noteAllocated w e, .nextSlice w]
  | publish (allocated : UInt64) : Opening w e true [.publish w e allocated, .nextSlice w]

theorem eq_of_aims {w : WorkerId} {e : Fin n} {i : Instr n} (h : i.aims w e = true) :
    i = .measure w e ∨ (∃ o, i = .raise w e o) ∨ ∃ o, i = .press w e o := by
  cases i <;> simp_all

theorem eq_of_prepares {w : WorkerId} {e : Fin n} {i : Instr n} (h : i.prepares w e = true) :
    i = .noteAllocated w e ∨ ∃ a, i = .publish w e a := by
  cases i <;> simp_all

theorem aims_le_probes (w : WorkerId) (e : Fin n) (l : List (Instr n)) : l.countP (aims w e) ≤ l.countP (probes w) := by
  refine List.countP_mono_left fun i _ hi => ?_
  cases i <;> simp_all

variable {b b' : Books n} {g g' : Gear n} {i x : Instr n} {rest next : List (Instr n)}

/-- A check goes on from what it is aimed at, or it begins with a slice that it finds. -/
theorem Leads.aims {w : WorkerId} {e : Fin n} (hl : i.Leads next) (hx : x ∈ next) (ha : x.aims w e = true) :
    i.aims w e = true ∨ i = .checkWorker w := by
  rcases eq_of_aims ha with rfl | ⟨o, rfl⟩ | ⟨o, rfl⟩
  · cases hl.yields hx
    exact Or.inr rfl
  · cases hl.yields hx
    simp
  · cases hl.yields hx
    simp

theorem Opening.round {w : WorkerId} {e : Fin n} {begun : Bool} {code : List (Instr n)} (h : Opening w e begun code) :
    .nextSlice w ∈ code := by
  cases h <;> simp

theorem Opening.no_close {w w' : WorkerId} {e e' : Fin n} {begun : Bool} {code : List (Instr n)}
    (h : Opening w e begun code) (a : UInt64) : .closeSlice w' e' a ∉ code := by
  cases h <;> simp

theorem Opening.unique {w : WorkerId} {e : Fin n} {begun begun' : Bool} {code : List (Instr n)}
    (h : Opening w e begun code) (h' : Opening w e begun' code) : begun = begun' := by
  cases h <;> cases h' <;> rfl

/-- What is left of opening a slice after a step. -/
theorem Opening.step {w : WorkerId} {e : Fin n} {begun : Bool} (h : Opening w e begun (i :: rest)) (hl : i.Leads next)
    (hx : x ∈ next ++ rest) (hp : x.prepares w e = true) :
    ∃ begun', Opening w e begun' (next ++ rest) ∧ (begun = true → begun' = true) ∧
      (begun' = true → begun = true ∨ i = .call (.startTimer e)) := by
  cases h with
  | clear =>
    cases hl
    exact ⟨false, .start, by simp⟩
  | start =>
    cases hl
    exact ⟨true, .refresh, by simp⟩
  | refresh =>
    cases hl
    exact ⟨true, .note, by simp⟩
  | note =>
    rcases hl with rfl | ⟨a, rfl⟩
    · simp at hx
      subst hx
      cases hp
    · exact ⟨true, .publish a, by simp⟩
  | publish a =>
    cases hl
    rcases eq_of_prepares hp with rfl | ⟨a', rfl⟩ <;> simp at hx

/-- A slice is opened by a thread that has nothing else to do before its next round. -/
theorem Leads.opening {w : WorkerId} {e : Fin n} (hl : i.Leads next) (hfits : i.Fits rest) (hx : x ∈ next)
    (hp : x.prepares w e = true) : i = .noteAllocated w e ∨ i = .openSlice w e ∧
      next ++ rest = [.clearInterrupt w, .call (.startTimer e), .noteAllocated w e, .nextSlice w] := by
  rcases eq_of_prepares hp with rfl | ⟨a, rfl⟩
  · cases hl.yields hx
    obtain rfl : rest = [.nextSlice w] := hfits
    rcases hl with rfl | rfl
    · simp at hx
    · exact Or.inr ⟨rfl, rfl⟩
  · cases hl.yields hx
    exact Or.inl rfl

/-- A slice is being opened as long as something of that is left. -/
theorem Opening.prepares {w : WorkerId} {e : Fin n} {begun : Bool} {code : List (Instr n)} (h : Opening w e begun code) :
    ∃ x ∈ code, x.prepares w e = true := by
  cases h <;> simp

theorem Opening.head_of_clear {w : WorkerId} {e : Fin n} {begun : Bool} (h : Opening w e begun (i :: rest))
    (hc : .clearInterrupt w ∈ i :: rest) : i = .clearInterrupt w := by
  cases h <;> simp_all

/-- A worker is interrupted two steps of escalation past the budget of the slice that it runs. -/
theorem Outcome.interrupted (ho : Outcome b g i b' g' next) {w : WorkerId} (h : g'.interrupted[w]? = some true) :
    g.interrupted[w]? = some true ∧ i ≠ .clearInterrupt w ∨
      ∃ e o, i = .press w e o ∧ 2 * g.config.timeouts.abortTimeout.nanos ≤ o.nanos ∧ b.current[w]? = some (some e) := by
  have hhired : (g.interrupted ++ [false])[w]? = some true → g.interrupted[w]? = some true := by
    intro hw
    rw [List.getElem?_append] at hw
    split at hw
    · exact hw
    · simp [List.getElem?_singleton] at hw
  have hpress : ∀ {w' : WorkerId} {e : Fin n} {o : Duration}, b.current[w']? = some (some e) →
      2 * g.config.timeouts.abortTimeout.nanos ≤ o.nanos → (g.interrupt w').interrupted[w]? = some true →
      g.interrupted[w]? = some true ∧ .press w' e o ≠ Instr.clearInterrupt (n := n) w ∨
        ∃ e' o', Instr.press w' e o = .press w e' o' ∧ 2 * g.config.timeouts.abortTimeout.nanos ≤ o'.nanos ∧
          b.current[w]? = some (some e') := by
    intro w' e o hcur hlate hup
    by_cases hne : w' = w
    · subst hne
      exact Or.inr ⟨e, o, rfl, hlate, hcur⟩
    · refine Or.inl ⟨?_, by simp⟩
      simpa [Gear.interrupt, List.getElem?_modify, hne] using hup
  cases ho
  case hire => exact Or.inl ⟨hhired h, by simp⟩
  case replace => exact Or.inl ⟨hhired h, by simp⟩
  case clearInterrupt w' =>
    by_cases hne : w' = w
    · subst hne
      have h : (g.interrupted.set w' false)[w']? = some true := h
      rw [List.getElem?_set_self (by simpa using (List.getElem?_eq_some_iff.1 h).1)] at h
      cases h
    · have h : (g.interrupted.set w' false)[w]? = some true := h
      rw [List.getElem?_set_ne hne] at h
      exact Or.inl ⟨h, by simp [hne]⟩
  case press w' e o hlate hlate' hcur => exact hpress hcur hlate h
  case giveUp w' e o hlate hcur => exact hpress hcur (by omega) h
  case take w' e idle hi h' => exact Or.inl ⟨h, by rcases hi with ⟨rfl, -⟩ | ⟨rfl, -⟩ <;> simp⟩
  case close w' idle hp hi h' => exact Or.inl ⟨h, by rcases hi with ⟨rfl, -⟩ | ⟨rfl, -⟩ <;> simp⟩
  case await w' idle hp hi h' => exact Or.inl ⟨h, by rcases hi with ⟨rfl, -⟩ | ⟨rfl, -⟩ <;> simp⟩
  all_goals exact Or.inl ⟨h, by simp⟩

end Instr

namespace Books

open Instr

variable {b b' : Books n} {g g' : Gear n} {a : Action n}

/-- What a thread has to do after an action: what it had to before, what a thread begins with, or what its next
instruction leads to. -/
theorem mem_codes_goes (hg : Goes b g a b' g') {code : List (Instr n)} (hc : code ∈ b'.codes) :
    code ∈ b.codes ∨ Begins code ∨ (∃ c, code = [.call c]) ∨ code = [] ∨
      ∃ (t : ThreadId) (i : Instr n) (rest next : List (Instr n)), b.codes[t]? = some (i :: rest) ∧ i.Leads next ∧
        code = next ++ rest ∧ ((∃ w e, i = .work w e) ∨
          ∃ c, Outcome { b with codes := b.codes.set t rest } g i c g' next ∧
            b' = { c with codes := c.codes.set t (next ++ rest) }) := by
  cases hg with
  | rest => exact Or.inl hc
  | advance => exact Or.inl hc
  | arrive c =>
    rcases List.mem_append.1 hc with hc | hc
    · exact Or.inl hc
    · exact Or.inr (Or.inr (Or.inl ⟨c, List.mem_singleton.1 hc⟩))
  | perform t w e rest next a ht ha =>
    rcases List.mem_or_eq_of_mem_set hc with hc | rfl
    · exact Or.inl hc
    · exact Or.inr (Or.inr (Or.inr (Or.inr ⟨t, _, rest, next, ht, ha.leads, rfl, Or.inl ⟨w, e, rfl⟩⟩)))
  | step t i rest next c g' ht hw he hl hd =>
    obtain ⟨extra, hcodes, hextra⟩ := codes_step ht he
    have hc : code ∈ b.codes.set t (next ++ rest) ++ extra := hcodes ▸ hc
    rcases List.mem_append.1 hc with hc | hc
    · rcases List.mem_or_eq_of_mem_set hc with hc | rfl
      · exact Or.inl hc
      · exact Or.inr (Or.inr (Or.inr (Or.inr ⟨t, i, rest, next, ht, hl, rfl, Or.inr ⟨c, outcome hw he hl hd, rfl⟩⟩)))
    · exact Or.inr (Or.inl (hextra code hc))
  | tear t e o rest ht hf =>
    rcases List.mem_or_eq_of_mem_set hc with hc | rfl
    · exact Or.inl hc
    · exact Or.inr (Or.inr (Or.inr (Or.inl rfl)))

theorem Begins.not_prepares {code : List (Instr n)} (h : Begins code) {x : Instr n} (hx : x ∈ code) (w : WorkerId)
    (e : Fin n) : x.prepares w e = false := by
  rcases h with ⟨w', rfl⟩ | rfl <;> simp at hx <;> rcases hx with rfl | rfl <;> rfl

/-- No slice ends in the middle of a check of its worker. -/
def Apart (b : Books n) (a : Action n) : Prop :=
  ∀ (t : ThreadId) (w : WorkerId) (i : Instr n) (rest : List (Instr n)), a = .step t →
    b.codes[t]? = some (i :: rest) → withdraws w i = true → b.todo.countP (probes w) = 0

/-- Checks find what they are aimed at, and leave those alone who open a slice. -/
structure Aimed (b : Books n) (g : Gear n) : Prop where
  /-- A thread that opens a slice does nothing else before its next round. -/
  opening : ∀ code ∈ b.codes, ∀ x ∈ code, ∀ w e, x.prepares w e = true → ∃ begun, Opening w e begun code
  /-- A check is aimed at the slice that the worker runs. -/
  current : ∀ w e, 0 < b.todo.countP (aims w e) → b.current[w]? = some (some e)
  /-- A worker that opens a slice is not interrupted once its thread has taken the interrupt back. -/
  calm : ∀ code ∈ b.codes, ∀ w e begun, Opening w e begun code → .clearInterrupt w ∉ code →
    g.interrupted[w]? ≠ some true

theorem Aimed.start : Aimed (start : Books n) g := by
  constructor <;> simp [Books.start, todo]

/-- A worker that opens a slice runs none. -/
theorem Orderly.current_of_opening (ho : b.Orderly) {code : List (Instr n)} (hc : code ∈ b.codes) {w : WorkerId}
    {e e' : Fin n} {begun : Bool} (h : Opening w e begun code) : b.current[w]? ≠ some (some e') := by
  intro hcur
  obtain ⟨t', code', a, ht', hclose, hnext⟩ := ho.closer hcur
  obtain ⟨t, ht⟩ := List.getElem?_of_mem hc
  obtain rfl := ho.thread_unique ht ht' h.round hnext
  rw [ht] at ht'
  obtain rfl := Option.some.inj ht'
  exact h.no_close a hclose

theorem Aimed.opening_goes (h : b.Aimed g) (hf : b.Fitted) (hg : Goes b g a b' g') {code : List (Instr n)}
    (hc : code ∈ b'.codes) {x : Instr n} (hx : x ∈ code) {w : WorkerId} {e : Fin n} (hp : x.prepares w e = true) :
    ∃ begun, Opening w e begun code := by
  rcases mem_codes_goes hg hc with hc | hbegins | ⟨c, rfl⟩ | rfl | ⟨t, i, rest, next, ht, hl, rfl, -⟩
  · exact h.opening code hc x hx w e hp
  · rw [hbegins.not_prepares hx] at hp
    cases hp
  · simp at hx
    subst hx
    cases hp
  · cases hx
  · have hmem := List.mem_of_getElem? ht
    have hold : (∃ y ∈ i :: rest, y.prepares w e = true) → ∃ begun, Opening w e begun (next ++ rest) := by
      rintro ⟨y, hy, hpy⟩
      obtain ⟨begun, hopen⟩ := h.opening _ hmem y hy w e hpy
      obtain ⟨begun', hopen', -⟩ := hopen.step hl hx hp
      exact ⟨begun', hopen'⟩
    rcases List.mem_append.1 hx with hx | hx
    · rcases hl.opening (hf _ hmem).1 hx hp with rfl | ⟨-, hcode⟩
      · exact hold ⟨_, List.mem_cons_self .., by simp⟩
      · exact ⟨false, hcode ▸ .clear⟩
    · exact hold ⟨x, List.mem_cons_of_mem _ hx, hp⟩

theorem aims_begins (w : WorkerId) (e : Fin n) (code : List (Instr n)) (h : Begins code) :
    code.countP (aims w e) = 0 := by
  rcases h with ⟨w', rfl⟩ | rfl <;> simp

theorem Aimed.current_step (h : b.Aimed g) (ho : b.Orderly) {t : ThreadId} {i : Instr n} {rest next : List (Instr n)}
    (ht : b.codes[t]? = some (i :: rest)) (he : i.Effect { b with codes := b.codes.set t rest } b' next)
    (hl : i.Leads next) (hout : Outcome { b with codes := b.codes.set t rest } g i b' g' next)
    (hapart : b.Apart (.step t)) {w : WorkerId} {e : Fin n}
    (haims : 0 < ({ b' with codes := b'.codes.set t (next ++ rest) } : Books n).todo.countP (aims w e)) :
    b'.current[w]? = some (some e) := by
  have hcount := countP_step (aims_begins w e) ht he
  by_cases hold : 0 < b.todo.countP (aims w e)
  · rcases hout.current_keep (h.current w e hold) with hkeep | hw | ⟨e', a, rfl⟩
    · exact hkeep
    · have hz := hapart t w i rest rfl ht hw
      have hle := aims_le_probes w e b.todo
      omega
    · have hmem := List.mem_of_getElem? ht
      obtain ⟨begun, hopen⟩ := h.opening _ hmem _ (List.mem_cons_self ..) w e' (by simp)
      exact absurd (h.current w e hold) (ho.current_of_opening hmem hopen)
  · have hpos : 0 < next.countP (aims w e) := by omega
    obtain ⟨x, hx, ha⟩ := List.countP_pos_iff.1 hpos
    rcases hl.aims hx ha with hi | rfl
    · exact absurd (List.countP_pos_iff.2 ⟨i, mem_todo ht, hi⟩) hold
    · cases hout with
      | check w e' hcur =>
        obtain rfl : e' = e := by
          have hx : x = .call (.refresh e') ∨ x = .measure w e' := by simpa using hx
          rcases hx with rfl | rfl
          · cases ha
          · simpa using ha
        exact hcur
      | checkNone w hnone => cases hx
      | take i w' e' b' idle h' hi => rcases hi with ⟨hi, -⟩ | ⟨hi, -⟩ <;> cases hi
      | close i w' b' idle h' hp hi => rcases hi with ⟨hi, -⟩ | ⟨hi, -⟩ <;> cases hi
      | await i w' b' idle h' hp hi => rcases hi with ⟨hi, -⟩ | ⟨hi, -⟩ <;> cases hi

theorem Aimed.current_goes (h : b.Aimed g) (ho : b.Orderly) (hapart : b.Apart a) (hg : Goes b g a b' g') {w : WorkerId}
    {e : Fin n} (haims : 0 < b'.todo.countP (aims w e)) : b'.current[w]? = some (some e) := by
  cases hg with
  | rest => exact h.current w e haims
  | advance => exact h.current w e haims
  | arrive c =>
    rw [countP_arrive] at haims
    exact h.current w e (by simpa using haims)
  | perform t w' e' rest next a ht ha =>
    have hcount := countP_replace (aims w e) ht next
    have hz : next.countP (aims w e) = 0 := by
      rw [List.countP_eq_zero]
      intro x hx hax
      rcases ha.leads.aims hx hax with hi | hi
      · cases hi
      · cases hi
    exact h.current w e (by omega)
  | step t i rest next b' g' ht hw he hl hd => exact h.current_step ho ht he hl (outcome hw he hl hd) hapart haims
  | tear t e' o rest ht hf => exact h.current w e (Nat.lt_of_lt_of_le haims (countP_tear _ ht))

/-- Whoever opens a slice after a step did so before, or begins to. -/
theorem Aimed.opening_before (h : b.Aimed g) (hf : b.Fitted) {t : ThreadId} {i : Instr n} {rest next : List (Instr n)}
    (ht : b.codes[t]? = some (i :: rest)) (hl : i.Leads next) {w : WorkerId} {e : Fin n} {begun : Bool}
    (hopen : Opening w e begun (next ++ rest)) :
    (i = .openSlice w e ∧ next ++ rest = [.clearInterrupt w, .call (.startTimer e), .noteAllocated w e, .nextSlice w]) ∨
      ∃ begun', Opening w e begun' (i :: rest) ∧ (begun' = true → begun = true) ∧
        (begun = true → begun' = true ∨ i = .call (.startTimer e)) := by
  have hmem := List.mem_of_getElem? ht
  obtain ⟨x, hx, hp⟩ := hopen.prepares
  have hold : (∃ y ∈ i :: rest, y.prepares w e = true) → ∃ begun', Opening w e begun' (i :: rest) ∧
      (begun' = true → begun = true) ∧ (begun = true → begun' = true ∨ i = .call (.startTimer e)) := by
    rintro ⟨y, hy, hpy⟩
    obtain ⟨begun', hbefore⟩ := h.opening _ hmem y hy w e hpy
    obtain ⟨begun'', hafter, hstep⟩ := hbefore.step hl hx hp
    exact ⟨begun', hbefore, hafter.unique hopen ▸ hstep⟩
  rcases List.mem_append.1 hx with hx | hx
  · rcases hl.opening (hf _ hmem).1 hx hp with rfl | hbegins
    · exact Or.inr (hold ⟨_, List.mem_cons_self .., by simp⟩)
    · exact Or.inl hbegins
  · exact Or.inr (hold ⟨x, List.mem_cons_of_mem _ hx, hp⟩)

/-- Whoever opens a slice with the interrupt taken back did so before, or has just taken it back. -/
theorem Aimed.calm_before (h : b.Aimed g) (hf : b.Fitted) {t : ThreadId} {i : Instr n} {rest next : List (Instr n)}
    (ht : b.codes[t]? = some (i :: rest)) (hl : i.Leads next) {w : WorkerId} {e : Fin n} {begun : Bool}
    (hopen : Opening w e begun (next ++ rest)) (hclear : .clearInterrupt w ∉ next ++ rest) :
    i = .clearInterrupt w ∨ ∃ begun', Opening w e begun' (i :: rest) ∧ .clearInterrupt w ∉ i :: rest := by
  rcases h.opening_before hf ht hl hopen with ⟨-, hcode⟩ | ⟨begun', hbefore, -⟩
  · rw [hcode] at hclear
    simp at hclear
  · by_cases hc : .clearInterrupt w ∈ i :: rest
    · exact Or.inl (hbefore.head_of_clear hc)
    · exact Or.inr ⟨begun', hbefore, hc⟩

theorem Aimed.calm_step (h : b.Aimed g) (ho : b.Orderly) (hf : b.Fitted) {t : ThreadId} {i : Instr n}
    {rest next : List (Instr n)} (ht : b.codes[t]? = some (i :: rest))
    (he : i.Effect { b with codes := b.codes.set t rest } b' next) (hl : i.Leads next)
    (hout : Outcome { b with codes := b.codes.set t rest } g i b' g' next) {code : List (Instr n)}
    (hc : code ∈ b'.codes.set t (next ++ rest)) {w : WorkerId} {e : Fin n} {begun : Bool} (hopen : Opening w e begun code)
    (hclear : .clearInterrupt w ∉ code) : g'.interrupted[w]? ≠ some true := by
  intro hup
  have hbefore : i = .clearInterrupt w ∨
      ∃ code' ∈ b.codes, ∃ begun', Opening w e begun' code' ∧ .clearInterrupt w ∉ code' := by
    obtain ⟨extra, hcodes, hextra⟩ := codes_step ht he
    rw [hcodes] at hc
    rcases List.mem_append.1 hc with hc | hc
    · rcases List.mem_or_eq_of_mem_set hc with hc | rfl
      · exact Or.inr ⟨code, hc, begun, hopen, hclear⟩
      · refine (h.calm_before hf ht hl hopen hclear).imp_right ?_
        rintro ⟨begun', hold⟩
        exact ⟨_, List.mem_of_getElem? ht, begun', hold⟩
    · obtain ⟨x, hx, hp⟩ := hopen.prepares
      rw [(hextra code hc).not_prepares hx] at hp
      cases hp
  rcases hout.interrupted hup with ⟨hold, hne⟩ | ⟨e', o, rfl, -, hcur⟩
  · obtain ⟨code', hc', begun', hopen', hclear'⟩ := hbefore.resolve_left hne
    exact h.calm code' hc' w e begun' hopen' hclear' hold
  · obtain ⟨code', hc', begun', hopen', -⟩ := hbefore.resolve_left (by simp)
    exact ho.current_of_opening hc' hopen' hcur

theorem Aimed.calm_goes (h : b.Aimed g) (ho : b.Orderly) (hf : b.Fitted) (hg : Goes b g a b' g') {code : List (Instr n)}
    (hc : code ∈ b'.codes) {w : WorkerId} {e : Fin n} {begun : Bool} (hopen : Opening w e begun code)
    (hclear : .clearInterrupt w ∉ code) : g'.interrupted[w]? ≠ some true := by
  cases hg with
  | rest => exact h.calm code hc w e begun hopen hclear
  | advance => exact h.calm code hc w e begun hopen hclear
  | arrive c =>
    rcases List.mem_append.1 hc with hc | hc
    · exact h.calm code hc w e begun hopen hclear
    · obtain rfl := List.mem_singleton.1 hc
      cases hopen
  | perform t w' e' rest next a ht ha =>
    rcases List.mem_or_eq_of_mem_set hc with hc | rfl
    · exact h.calm code hc w e begun hopen hclear
    · rcases h.calm_before hf ht ha.leads hopen hclear with hi | ⟨begun', hold, -⟩
      · cases hi
      · cases hold
  | step t i rest next b' g' ht hw he hl hd => exact h.calm_step ho hf ht he hl (outcome hw he hl hd) hc hopen hclear
  | tear t e' o rest ht hfail =>
    rcases List.mem_or_eq_of_mem_set hc with hc | rfl
    · exact h.calm code hc w e begun hopen hclear
    · cases hopen

/-- Checks stay aimed as long as no slice ends in the middle of one. -/
theorem Aimed.goes (h : b.Aimed g) (ho : b.Orderly) (hf : b.Fitted) (hapart : b.Apart a) (hg : Goes b g a b' g') :
    b'.Aimed g' where
  opening _ hc _ hx _ _ hp := h.opening_goes hf hg hc hx hp
  current _ _ haims := h.current_goes ho hapart hg haims
  calm _ hc _ _ _ hopen hclear := h.calm_goes ho hf hg hc hopen hclear

end Books

namespace Pool

open Instr

/-- Whether no slice ends in the middle of a check of its worker. -/
def apart (s : Pool n) : Action n → Bool
  | .step t =>
    match s.code t with
    | .closeSlice w _ _ :: _ | .takeAbandoned w :: _ => s.threads.all fun thread => thread.code.all (!probes w ·)
    | _ => true
  | _ => true

theorem books_apart {s : Pool n} {a : Action n} (h : s.apart a = true) : s.books.Apart a := by
  rintro t w i rest rfl ht hw
  have hcode : s.code t = i :: rest := by rw [code_eq, ht]; rfl
  have hall : ∀ thread ∈ s.threads, ∀ x ∈ thread.code, probes w x = false := by
    have hmatch : (s.threads.all fun thread => thread.code.all (!probes w ·)) = true := by
      unfold apart at h
      simp only [hcode] at h
      cases i <;> simp only [withdraws, Bool.false_eq_true, decide_eq_true_eq] at hw <;> exact hw ▸ h
    simpa using hmatch
  rw [List.countP_eq_zero]
  intro x hx
  obtain ⟨code, hc, hx⟩ := List.mem_flatten.1 hx
  obtain ⟨thread, hthread, rfl⟩ := List.mem_map.1 hc
  rw [hall thread hthread x hx]
  exact Bool.false_ne_true

/-- Checks are aimed at what the workers run, after every run in which no slice ends in the middle of a check of its
worker. -/
theorem run_aimed (config : SchedulerConfig) (context : Metrics.Context) (log : LogFilter) (hosts : Vector Host n)
    {l : List (Action n)} (h : (create config context log hosts).Along (fun s a => s.apart a) l) :
    let s := (create config context log hosts).run l
    s.books.Fitted ∧ s.books.Aimed s.gear := by
  refine run_created (R := fun s a => s.apart a) (P := fun s => s.books.Fitted ∧ s.books.Aimed s.gear) ?_ ?_ h
  · rintro s a ho - ⟨hf, haimed⟩ ha
    exact ⟨hf.goes (act_goes s a), haimed.goes ho hf (books_apart ha) (act_goes s a)⟩
  · rw [books_create]
    exact ⟨by simp [Books.Fitted, Books.start], .start⟩

end Pool

end FairShare.Scheduler
