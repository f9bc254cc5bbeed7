import FairShare.Proofs.Custody
import FairShare.Proofs.Tally

/-!
# Workers and their posts

As long as the watchdog takes slices over in time, every executor that runs is on a worker of its own that has a slot, so
no more of them run than workers are counted.
-/

namespace FairShare.Scheduler

variable {n : Nat}

open Instr

/-! ## On which worker an executor runs -/

namespace Instr

/-- Whether an instruction leads to the slice of an executor on a worker. -/
@[simp] def readies (w : WorkerId) (e : Fin n) : Instr n → Bool
  | .openSlice w' e' | .noteAllocated w' e' | .publish w' e' _ => w' = w && e' = e
  | _ => false

theorem stays_of_readies {w : WorkerId} {e : Fin n} {i : Instr n} (h : readies w e i = true) : stays e i = true := by
  cases i <;> simp_all

theorem eq_of_withdraws {w : WorkerId} {i : Instr n} (h : withdraws w i = true) :
    (∃ e a, i = .closeSlice w e a) ∨ i = .takeAbandoned w := by
  unfold withdraws at h
  split at h
  · obtain rfl := of_decide_eq_true h
    exact Or.inl ⟨_, _, rfl⟩
  · obtain rfl := of_decide_eq_true h
    exact Or.inr rfl
  · cases h

theorem slices_of_closes {w : WorkerId} {e : Fin n} {i : Instr n} (h : closes w e i = true) : slices w i = true := by
  obtain ⟨a, rfl⟩ := eq_of_closes h
  simp

/-- A thread that leads to a slice has nobody leave. -/
theorem Fits.quits_of_readies (hf : i.Fits rest) {w' : WorkerId} {e : Fin n} (hr : Instr.readies w' e i = true)
    (w : WorkerId) {j : Instr n} (hj : j ∈ i :: rest) : Instr.quits w j = false := by
  obtain ⟨rfl, hi⟩ : rest = [.nextSlice w'] ∧ Instr.quits w i = false := by
    unfold Instr.readies at hr
    split at hr
    case h_4 => cases hr
    all_goals
      obtain ⟨rfl, -⟩ : _ ∧ _ := by simpa using hr
      exact ⟨hf, rfl⟩
  rcases List.mem_cons.1 hj with rfl | hj
  · exact hi
  · rw [List.mem_singleton.1 hj]
    rfl

/-- Nobody is about to begin a slice but whom a worker took. -/
theorem Yields.readies {x : Instr n} (hy : i.Yields x) {w : WorkerId} {e : Fin n} (hr : Instr.readies w e x = true) :
    Instr.readies w e i = true ∨ (i = .seekWork w ∨ i = .awaitWork w) ∧ x = .openSlice w e := by
  cases x <;> simp only [Instr.readies, Bool.false_eq_true, Bool.and_eq_true, decide_eq_true_eq] at hr
  case openSlice w' e' =>
    obtain ⟨rfl, rfl⟩ := hr
    cases hy with
    | seekTake => exact Or.inr ⟨Or.inl rfl, rfl⟩
    | awaitTake => exact Or.inr ⟨Or.inr rfl, rfl⟩
  case noteAllocated w' e' =>
    obtain ⟨rfl, rfl⟩ := hr
    cases hy
    simp
  case publish w' e' a =>
    obtain ⟨rfl, rfl⟩ := hr
    cases hy
    simp

/-- Whoever is about to end a stay does so. -/
theorem Leads.stays (hl : i.Leads next) {e : Fin n} (hi : Instr.stays e i = true) (hsettle : i ≠ .settle e)
    (hr : ∀ w, Instr.readies w e i = false) : ∃ x ∈ next, Instr.stays e x = true := by
  cases i <;> simp only [Instr.stays, decide_eq_true_eq, Bool.false_eq_true] at hi
  case resetTimer e' slice =>
    subst hi
    obtain ⟨accounts, -, rfl⟩ := hl
    exact ⟨.settle e', by simp, by simp⟩
  case settle e' => exact absurd (congrArg Instr.settle hi) hsettle
  case openSlice w e' => simpa [hi] using hr w
  case noteAllocated w e' => simpa [hi] using hr w
  case publish w e' a => simpa [hi] using hr w

end Instr

namespace Books

variable {b b' : Books n} {g g' : Gear n} {t : ThreadId} {i : Instr n} {rest next : List (Instr n)}

/-- Every executor that runs is on a worker of its own that has a slot. -/
structure Posted (b : Books n) (g : Gear n) : Prop where
  /-- The slice of a worker is that of the executor that it took last. -/
  readied : ∀ w e, 0 < b.todo.countP (readies w e) → lastTaker g.takings e = some w
  held : ∀ (w : WorkerId) (e : Fin n), b.current[w]? = some (some e) → lastTaker g.takings e = some w
  /-- A worker that is guarded has the slice that its thread has still to close. -/
  exposed : ∀ w e, 0 < b.todo.countP (closes w e) → b.Guards w → b.current[w]? = some (some e)
  /-- The thread of a worker that is guarded has still to end the stay. -/
  tended : ∀ e ∈ b.running, ∀ w, lastTaker g.takings e = some w → b.Guards w →
    ∀ code ∈ b.codes, .nextSlice w ∈ code → ∃ i ∈ code, tends w e i = true
  /-- The worker has a slot. -/
  seated : ∀ e ∈ b.running, ∀ w, lastTaker g.takings e = some w → ∃ k : Nat, g.slots[k]? = some (some w)
  /-- The worker does not leave it before the stay has ended. -/
  leaving : ∀ e ∈ b.running, ∀ w, lastTaker g.takings e = some w → ∀ code ∈ b.codes, ∀ i ∈ code, quits w i = true →
    ∃ j ∈ code, stays e j = true ∨ abandons w j = true
  /-- The worker has nobody else. -/
  alone : ∀ e ∈ b.running, ∀ e' ∈ b.running, ∀ w, lastTaker g.takings e = some w → lastTaker g.takings e' = some w →
    e = e'

/-- A worker that is guarded after a step was guarded before it. -/
theorem guards_before (ht : b.codes[t]? = some (i :: rest)) (he : i.Effect { b with codes := b.codes.set t rest } b' next)
    (hl : i.Leads next) (hout : Outcome { b with codes := b.codes.set t rest } g i b' g' next) {w : WorkerId}
    (hw : w < b.live.length)
    (h : ({ b' with codes := b'.codes.set t (next ++ rest) } : Books n).Guards w) : b.Guards w := by
  have hup : b.live[w]? = some b.live[w] := List.getElem?_eq_getElem hw
  rcases h with h | h
  · have h : b'.live[w]? = some true := h
    rcases hout.live hup with hlive | ⟨htrue, -⟩
    · exact Or.inl (hup.trans (hlive.symm.trans h))
    · exact Or.inl (by rw [hup, htrue])
  · by_cases hpos : 0 < next.countP (abandons w)
    · obtain ⟨x, hx, hab⟩ := List.countP_pos_iff.1 hpos
      obtain rfl := eq_of_abandons hab
      cases hl.yields hx
      cases hout
      case retire hlive => exact Or.inl hlive
      case retired => simp at hx
      case take hi _ => rcases hi with ⟨hi, -⟩ | ⟨hi, -⟩ <;> cases hi
      case close hi _ => rcases hi with ⟨hi, -⟩ | ⟨hi, -⟩ <;> cases hi
      case await hi _ => rcases hi with ⟨hi, -⟩ | ⟨hi, -⟩ <;> cases hi
    · have hcount := countP_step (abandons_begins w) ht he
      exact Or.inr (by omega)

end Books

namespace Instr

variable {b b' : Books n} {g g' : Gear n} {i : Instr n} {next : List (Instr n)}

/-- A worker that takes an executor is the last that took it, and one that runs is not taken. -/
theorem Outcome.taker_keep (ho : Outcome b g i b' g' next) {e : Fin n} (he : e ∈ b.running)
    (hone : b'.running.count e ≤ 1) : lastTaker g'.takings e = lastTaker g.takings e := by
  rcases ho.custody with ⟨-, htakings⟩ | ⟨w, e', -, -, hrun, -, htakings⟩
  · rw [htakings]
  · have hne : e' ≠ e := by
      rintro rfl
      have hpos := List.count_pos_iff.2 he
      rw [hrun, List.count_append, List.count_singleton_self] at hone
      omega
    rw [htakings, lastTaker_append, if_neg hne]

theorem Outcome.taker_new (ho : Outcome b g i b' g' next) {w : WorkerId} {e : Fin n}
    (hi : i = .seekWork w ∨ i = .awaitWork w) (hnext : .openSlice w e ∈ next) : lastTaker g'.takings e = some w := by
  cases ho
  case take w' e' idle hi' htake =>
    obtain ⟨rfl, rfl⟩ : w = w' ∧ e = e' := by simpa using hnext
    show lastTaker (Gear.takings _) e = _
    rw [Gear.takings_deed]
    exact (lastTaker_append _ e e w).trans (if_pos rfl)
  case close => simp at hnext
  case await => simp at hnext
  all_goals rcases hi with hi | hi <;> cases hi

end Instr

namespace Books

variable {b b' : Books n} {g g' : Gear n} {t : ThreadId} {i : Instr n} {rest next : List (Instr n)}

theorem readies_begins (w : WorkerId) (e : Fin n) (code : List (Instr n)) (h : Begins code) :
    code.countP (readies w e) = 0 := by
  rcases h with ⟨w', rfl⟩ | rfl <;> simp

theorem closes_begins (w : WorkerId) (e : Fin n) (code : List (Instr n)) (h : Begins code) :
    code.countP (closes w e) = 0 := by
  rcases h with ⟨w', rfl⟩ | rfl <;> simp

theorem Posted.step_readied (h : b.Posted g) (hp : ∀ e, (b.account e).Placed) (hone : ∀ e, b'.running.count e ≤ 1)
    (ht : b.codes[t]? = some (i :: rest)) (he : i.Effect { b with codes := b.codes.set t rest } b' next)
    (hl : i.Leads next) (hout : Outcome { b with codes := b.codes.set t rest } g i b' g' next) {w : WorkerId} {e : Fin n}
    (hpos : 0 < ({ b' with codes := b'.codes.set t (next ++ rest) } : Books n).todo.countP (readies w e)) :
    lastTaker g'.takings e = some w := by
  have hold : 0 < b.todo.countP (readies w e) → lastTaker g'.takings e = some w := by
    intro hpos
    obtain ⟨x, hx, hr⟩ := List.countP_pos_iff.1 hpos
    have hrun := mem_running_of_stays (hp _) hx (stays_of_readies hr)
    rw [hout.taker_keep hrun (hone e)]
    exact h.readied w e hpos
  by_cases hnew : 0 < next.countP (readies w e)
  · obtain ⟨x, hx, hr⟩ := List.countP_pos_iff.1 hnew
    rcases (hl.yields hx).readies hr with hi | ⟨hi, rfl⟩
    · exact hold (List.countP_pos_iff.2 ⟨i, mem_todo ht, hi⟩)
    · exact hout.taker_new hi hx
  · have hcount := countP_step (readies_begins w e) ht he
    exact hold (by omega)

theorem Posted.step_held (h : b.Posted g) (hp : ∀ e, (b.account e).Placed) (hone : ∀ e, b'.running.count e ≤ 1)
    (ht : b.codes[t]? = some (i :: rest)) (hout : Outcome { b with codes := b.codes.set t rest } g i b' g' next)
    {w : WorkerId} {e : Fin n} (hw : b'.current[w]? = some (some e)) : lastTaker g'.takings e = some w := by
  rcases hout.current hw with ⟨hold, -⟩ | ⟨a, rfl⟩
  · have hrun : e ∈ b.running := mem_running_of_current (hp e) hold
    rw [hout.taker_keep hrun (hone e)]
    exact h.held w e hold
  · have hrun : e ∈ b.running := mem_running_of_stays (hp e) (mem_todo ht) (by simp)
    rw [hout.taker_keep hrun (hone e)]
    exact h.readied w e (List.countP_pos_iff.2 ⟨_, mem_todo ht, by simp⟩)

/-- Nobody is about to take over the slice of a worker from which it is just taken. -/
theorem not_guards_of_takeAbandoned (hord : b.Orderly) (hs : Seated b.live b.leaving g) (hf : b.Fitted) {w : WorkerId}
    (ht : b.codes[t]? = some (.takeAbandoned w :: rest))
    (he : (takeAbandoned w).Effect { b with codes := b.codes.set t rest } b' next) (hl : (takeAbandoned w).Leads next)
    (hout : Outcome { b with codes := b.codes.set t rest } g (.takeAbandoned w) b' g' next) :
    ¬({ b' with codes := b'.codes.set t (next ++ rest) } : Books n).Guards w := by
  have hcount := countP_step (abandons_begins w) ht he
  have hhead : 0 < b.todo.countP (abandons w) := List.countP_pos_iff.2 ⟨_, mem_todo ht, by simp⟩
  have hdown := hord.staffed.retired w hhead
  have hle : b.todo.countP (abandons w) ≤ b.todo.countP (decides w) :=
    countP_flatten_le fun code hc => (hf code hc).abandons_le w
  have hdecides : _ ≤ b.leaving w := drops_add_decides w b.todo
  have hone := hs.once w
  rw [if_pos hdown] at hone
  have hnext : next.countP (abandons w) = 0 := by rcases hl with rfl | ⟨e, rfl⟩ <;> simp
  rintro (hup | hpos)
  · rcases hout.live hdown with hdown' | ⟨hup', -⟩
    · exact absurd (hdown'.symm.trans hup) (by simp)
    · cases hup'
  · rw [hnext] at hcount
    simp at hcount
    omega

theorem Posted.step_exposed (h : b.Posted g) (hord : b.Orderly) (hs : Seated b.live b.leaving g) (hf : b.Fitted)
    (ht : b.codes[t]? = some (i :: rest)) (he : i.Effect { b with codes := b.codes.set t rest } b' next)
    (hl : i.Leads next) (hout : Outcome { b with codes := b.codes.set t rest } g i b' g' next) {w : WorkerId} {e : Fin n}
    (hpos : 0 < ({ b' with codes := b'.codes.set t (next ++ rest) } : Books n).todo.countP (closes w e))
    (hg : ({ b' with codes := b'.codes.set t (next ++ rest) } : Books n).Guards w) :
    b'.current[w]? = some (some e) := by
  have hcount := fun e => countP_step (closes_begins w e) ht he
  have hone := hord.one_slice w
  by_cases hnew : 0 < next.countP (closes w e)
  · obtain ⟨x, hx, hclose⟩ := List.countP_pos_iff.1 hnew
    obtain ⟨a, rfl⟩ := eq_of_closes hclose
    cases hl.yields hx
    cases hout
    case publish => exact List.getElem?_set_self (hord.started (mem_todo ht) (by simp))
    case take hi _ => rcases hi with ⟨hi, -⟩ | ⟨hi, -⟩ <;> cases hi
    case close hi _ => rcases hi with ⟨hi, -⟩ | ⟨hi, -⟩ <;> cases hi
    case await hi _ => rcases hi with ⟨hi, -⟩ | ⟨hi, -⟩ <;> cases hi
  · have hold : 0 < b.todo.countP (closes w e) := by
      have := hcount e
      omega
    obtain ⟨x, hx, hclose⟩ := List.countP_pos_iff.1 hold
    have hlt : w < b.live.length := by
      rw [hord.lengths]
      exact hord.started hx (slices_of_closes hclose)
    have hcur := h.exposed w e hold (guards_before ht he hl hout hlt hg)
    rcases hout.current_keep hcur with hkeep | hwithdraw | ⟨e', a, rfl⟩
    · exact hkeep
    · exfalso
      rcases eq_of_withdraws hwithdraw with ⟨e', a, rfl⟩ | rfl
      · -- The slice that is closed is the only one of its worker.
        obtain rfl : e' = e := closes_unique hone (List.countP_pos_iff.2 ⟨_, mem_todo ht, by simp⟩) hold
        have hle := closes_le_slices w e' b.todo
        have := hcount e'
        simp at this
        omega
      · exact not_guards_of_takeAbandoned hord hs hf ht he hl hout hg
    · -- The thread of the worker has either to close a slice or to publish one.
      have hrest : rest = [.nextSlice w] := (hf _ (List.mem_of_getElem? ht)).1
      obtain ⟨t', code, a', ht', hclose', hnext⟩ := hord.closing_thread hold
      obtain rfl := hord.thread_unique ht ht' (by simp [hrest]) hnext
      rw [ht] at ht'
      obtain rfl := Option.some.inj ht'
      simp [hrest] at hclose'

theorem Posted.step_tended (h : b.Posted g) (hc : b.Custody g.takings) (hord : b.Orderly) (hf : b.Fitted)
    (ht : b.codes[t]? = some (i :: rest)) (he : i.Effect { b with codes := b.codes.set t rest } b' next)
    (hl : i.Leads next) (hout : Outcome { b with codes := b.codes.set t rest } g i b' g' next)
    (hnote : ∀ w e, i = .noteAllocated w e → next ≠ []) {e : Fin n} (hrun : e ∈ b'.running) {w : WorkerId}
    (hw : lastTaker g'.takings e = some w)
    (hg : ({ b' with codes := b'.codes.set t (next ++ rest) } : Books n).Guards w) {code : List (Instr n)}
    (hcode : code ∈ b'.codes.set t (next ++ rest)) (hnext : .nextSlice w ∈ code) : ∃ x ∈ code, tends w e x = true := by
  have hmem := List.mem_of_getElem? ht
  have hfits : i.Fits rest := (hf _ hmem).1
  rcases hc.before hout hrun hw with ⟨hold, hsettle, hwold, -, -⟩ | ⟨hi, rfl, -⟩
  · have hlt : w < b.live.length := by
      obtain ⟨w', hw', hlt⟩ := hc.taken e hold
      obtain rfl := Option.some.inj (hwold.symm.trans hw')
      exact hlt
    have hgb := guards_before ht he hl hout hlt hg
    rcases codes_veteran ht he (hord.lengths ▸ hlt) hcode hnext with rfl | ⟨t', -, hcode⟩
    · have hnext := hl.nextSlice hnext
      obtain ⟨x, hx, htends⟩ := h.tended e hold w hwold hgb _ hmem hnext
      rcases List.mem_cons.1 hx with rfl | hx
      · have hclose : ∀ a, x = .closeSlice w e a → next ≠ [] := by
          rintro a rfl
          have hcur := h.exposed w e (List.countP_pos_iff.2 ⟨_, mem_todo ht, by simp⟩) hgb
          obtain ⟨-, ⟨e', slice, -, rfl⟩ | ⟨hnone, -⟩⟩ := he
          · simp
          · exact absurd hcur (hnone e)
        obtain ⟨y, hy, hty⟩ := hl.tends hfits hnext htends hsettle hnote hclose
        exact ⟨y, List.mem_append_left _ hy, hty⟩
      · exact ⟨x, List.mem_append_right _ hx, htends⟩
    · exact h.tended e hold w hwold hgb code (List.mem_of_getElem? hcode) hnext
  · obtain ⟨hlt, rfl⟩ : w < b.current.length ∧ rest = [.nextSlice w] := by
      rcases hi with rfl | rfl <;> exact ⟨hord.started (mem_todo ht) (by simp), hfits⟩
    rcases codes_veteran ht he hlt hcode hnext with rfl | ⟨t', hne, hcode⟩
    · simp
    · exact absurd (hord.thread_unique hcode ht hnext (by simp)) hne

/-- A worker that looks for an executor is guarded. -/
theorem guards_of_seeking (hgu : b.Guarded) (hf : b.Fitted) {w : WorkerId} (hi : i = .seekWork w ∨ i = .awaitWork w)
    (ht : b.codes[t]? = some (i :: rest)) : rest = [.nextSlice w] ∧ b.Guards w := by
  have hrest : rest = [.nextSlice w] := by
    rcases hi with rfl | rfl <;> exact (hf _ (List.mem_of_getElem? ht)).1
  refine ⟨hrest, hgu.engaged t _ w ht ⟨by simp [hrest], ?_, ?_⟩⟩
  · rcases hi with rfl | rfl <;> simp
  · rcases hi with rfl | rfl <;> simp [hrest]

end Books

namespace Instr

variable {b b' : Books n} {g g' : Gear n} {i : Instr n} {next : List (Instr n)}

/-- A worker keeps its slot until it leaves it. -/
theorem Outcome.slots_keep (ho : Outcome b g i b' g' next) {k : Nat} {w : WorkerId} (hk : g.slots[k]? = some (some w)) :
    g'.slots[k]? = some (some w) ∨ ∃ respawn, i = .vacate w respawn := by
  have hset : ∀ (slot : Nat) (x : Option WorkerId), slot ≠ k → (g.slots.set slot x)[k]? = some (some w) :=
    fun slot x hne => by rw [List.getElem?_set_ne hne]; exact hk
  have hleave : ∀ (w' : WorkerId) (slot : Nat) (respawn : Bool), g.slots[slot]? = some (some w') →
      slot ≠ k ∨ ∃ respawn', (.vacate w' respawn : Instr n) = .vacate w respawn' := by
    intro w' slot respawn hslot
    by_cases hne : slot = k
    · subst hne
      rw [hk] at hslot
      cases hslot
      exact Or.inr ⟨respawn, rfl⟩
    · exact Or.inl hne
  cases ho
  case hire hslot =>
    refine Or.inl (hset _ _ ?_)
    rintro rfl
    rw [hk] at hslot
    cases hslot
  case leave w' slot current codes hh hseat hslot => exact (hleave w' slot false hslot).imp_left (hset slot none)
  case replace w' slot current codes hh hseat hslot =>
    refine (hleave w' slot true hslot).imp_left fun hne => ?_
    show ((g.slots.set slot none).set slot _)[k]? = _
    rw [List.set_set]
    exact hset slot _ hne
  all_goals exact Or.inl hk

/-- What is left when a worker has retired ends no stay. -/
theorem Base.ends_nothing {w : WorkerId} {base : List (Instr n)} (h : Base w base) {x : Instr n} (hx : x ∈ base) :
    (∀ e, Instr.stays e x = false) ∧ ∀ w', Instr.abandons w' x = false := by
  rcases h with rfl | rfl | ⟨ws, rfl⟩
  · cases hx
  · obtain rfl := List.mem_singleton.1 hx
    simp
  · rcases List.mem_append.1 hx with hx | hx
    · obtain ⟨v, -, rfl⟩ := List.mem_map.1 hx
      simp
    · obtain rfl := List.mem_singleton.1 hx
      simp

end Instr

namespace Books

variable {b b' : Books n} {g g' : Gear n} {t : ThreadId} {i : Instr n} {rest next : List (Instr n)}

theorem Posted.step_seated (h : b.Posted g) (hc : b.Custody g.takings) (hf : b.Fitted)
    (hgu : b.Guarded) (hs : Seated b.live b.leaving g) (ht : b.codes[t]? = some (i :: rest))
    (hout : Outcome { b with codes := b.codes.set t rest } g i b' g' next) {e : Fin n} (hrun : e ∈ b'.running)
    {w : WorkerId} (hw : lastTaker g'.takings e = some w) : ∃ k : Nat, g'.slots[k]? = some (some w) := by
  have hmem := List.mem_of_getElem? ht
  rcases hc.before hout hrun hw with ⟨hold, -, hwold, -, -⟩ | ⟨hi, -, -⟩
  · obtain ⟨k, hk⟩ := h.seated e hold w hwold
    rcases hout.slots_keep hk with hk | ⟨respawn, rfl⟩
    · exact ⟨k, hk⟩
    · -- The worker would have to end the stay first.
      obtain ⟨j, hj, hends⟩ := h.leaving e hold w hwold _ hmem _ (List.mem_cons_self ..) (by simp)
      rcases List.mem_cons.1 hj with rfl | hj
      · simp at hends
      · have hbase : Base w rest := (hf _ hmem).1
        obtain ⟨hstays, habandons⟩ := hbase.ends_nothing hj
        rw [hstays, habandons] at hends
        simp at hends
  · obtain ⟨⟨k, hk⟩, -⟩ := seat_of_guards hs hf (guards_of_seeking hgu hf hi ht).2
    rcases hout.slots_keep hk with hk | ⟨respawn, rfl⟩
    · exact ⟨k, hk⟩
    · rcases hi with hi | hi <;> cases hi

theorem Posted.step_alone (h : b.Posted g) (hc : b.Custody g.takings) (hf : b.Fitted) (hgu : b.Guarded)
    (ht : b.codes[t]? = some (i :: rest)) (hout : Outcome { b with codes := b.codes.set t rest } g i b' g' next)
    {e e' : Fin n} (hrun : e ∈ b'.running) (hrun' : e' ∈ b'.running) {w : WorkerId}
    (hw : lastTaker g'.takings e = some w) (hw' : lastTaker g'.takings e' = some w) : e = e' := by
  have hmem := List.mem_of_getElem? ht
  -- A worker that takes somebody has nobody else.
  have hnobody : ∀ e, e ∈ b.running → lastTaker g.takings e = some w → i = .seekWork w ∨ i = .awaitWork w → False := by
    intro e hold hwold hi
    obtain ⟨hrest, hguards⟩ := guards_of_seeking hgu hf hi ht
    obtain ⟨x, hx, htends⟩ := h.tended e hold w hwold hguards _ hmem (by simp [hrest])
    rw [hrest] at hx
    rcases hi with rfl | rfl <;> rcases List.mem_cons.1 hx with rfl | hx <;> simp_all
  rcases hc.before hout hrun hw with ⟨hold, -, hwold, -, -⟩ | ⟨hi, hnext, -⟩
  · rcases hc.before hout hrun' hw' with ⟨hold', -, hwold', -, -⟩ | ⟨hi', -, -⟩
    · exact h.alone e hold e' hold' w hwold hwold'
    · exact absurd hi' fun hi => hnobody e hold hwold hi
  · rcases hc.before hout hrun' hw' with ⟨hold', -, hwold', -, -⟩ | ⟨-, hnext', -⟩
    · exact absurd hi fun hi => hnobody e' hold' hwold' hi
    · rw [hnext] at hnext'
      simpa using hnext'

/-- Whoever comes to have a worker leave retired it, or was about to have it leave. -/
theorem Leads.quits (hl : i.Leads next) {w : WorkerId} {x : Instr n} (hx : x ∈ next) (hq : Instr.quits w x = true) :
    i = .retire w ∧ next = [.takeAbandoned w, .decideRespawn w] ∨ Instr.quits w i = true := by
  have hy := hl.yields hx
  unfold Instr.quits at hq
  split at hq
  · obtain rfl := of_decide_eq_true hq
    cases hy
    rcases hl with rfl | rfl
    · cases hx
    · exact Or.inl ⟨rfl, rfl⟩
  · obtain rfl := of_decide_eq_true hq
    cases hy
    exact Or.inr (by simp)
  · cases hq

/-- The thread that has a worker leave is the one that is about to take over its slice. -/
theorem abandons_mem_of_quits (hs : Seated b.live b.leaving g) (hf : b.Fitted) {w : WorkerId} (hg : b.Guards w)
    {code : List (Instr n)} (hcode : code ∈ b.codes) {x : Instr n} (hx : x ∈ code) (hq : quits w x = true) :
    ∃ y ∈ code, abandons w y = true := by
  obtain ⟨hdown, -⟩ := leaves_seat hs (List.mem_flatten.2 ⟨code, hcode, hx⟩) hq
  have hpos : 0 < b.todo.countP (abandons w) := by
    rcases hg with hup | hpos
    · rw [hdown] at hup
      cases hup
    · exact hpos
  obtain ⟨y, hy, hab⟩ := List.countP_pos_iff.1 hpos
  obtain ⟨code', hcode', hy⟩ := List.mem_flatten.1 hy
  obtain ⟨t, ht⟩ := List.getElem?_of_mem hcode
  obtain ⟨t', ht'⟩ := List.getElem?_of_mem hcode'
  by_cases hne : t = t'
  · subst hne
    rw [ht] at ht'
    obtain rfl := Option.some.inj ht'
    exact ⟨y, hy, hab⟩
  · -- Two threads cannot both have it leave.
    have htwo := countP_two (quits w) hne ht ht'
    have hone : b.todo.countP (quits w) ≤ _ := hs.once w
    have hle := (hf code' hcode').abandons_le w
    have hdecides := drops_add_decides w code'
    have hposx : 0 < code.countP (quits w) := List.countP_pos_iff.2 ⟨x, hx, hq⟩
    have hposy : 0 < code'.countP (abandons w) := List.countP_pos_iff.2 ⟨y, hy, hab⟩
    rw [if_pos hdown] at hone
    omega

/-- The slice that is taken over is that of the executor with that worker. -/
theorem Posted.stays_of_abandon (h : b.Posted g) (hp : ∀ e, (b.account e).Placed) {w : WorkerId}
    (ht : b.codes[t]? = some (.takeAbandoned w :: rest)) (hf : b.Fitted)
    (hout : Outcome { b with codes := b.codes.set t rest } g (.takeAbandoned w) b' g' next)
    (hin : b.InTime (.step t)) {e : Fin n} (hrun : e ∈ b.running) (hw : lastTaker g.takings e = some w) :
    ∃ x ∈ next, stays e x = true := by
  have hmem := List.mem_of_getElem? ht
  have hguards : b.Guards w := Or.inr (List.countP_pos_iff.2 ⟨_, mem_todo ht, by simp⟩)
  obtain ⟨base, hbase, hrest⟩ := (hf _ hmem).1
  by_cases hnext : .nextSlice w ∈ rest
  · -- Its own thread retires it when it has no slice.
    obtain ⟨x, hx, htends⟩ := h.tended e hrun w hw hguards _ hmem (List.mem_cons_of_mem _ hnext)
    rw [hrest] at hx hnext
    have hbase' : base = [.nextSlice w] := by
      rcases hbase with rfl | rfl | ⟨ws, rfl⟩
      · simp at hnext
      · rfl
      · simp at hnext
    simp only [hbase', List.mem_cons, List.not_mem_nil, or_false] at hx
    rcases hx with rfl | rfl | rfl <;> simp at htends
  · obtain ⟨e', hcur⟩ := hin t w rest rfl ht hnext
    obtain rfl : e' = e := h.alone e' (mem_running_of_current (hp _) hcur) e hrun w (h.held w e' hcur) hw
    cases hout
    case abandon e'' hcur' =>
      have hcur' : b.current[w]? = some (some e'') := hcur'
      obtain rfl : e'' = e' := by simpa using hcur'.symm.trans hcur
      exact ⟨_, List.mem_singleton_self _, by simp⟩
    case unburdened hnone => exact absurd hcur (hnone e')
    case take hi _ => rcases hi with ⟨hi, -⟩ | ⟨hi, -⟩ <;> cases hi
    case close hi _ => rcases hi with ⟨hi, -⟩ | ⟨hi, -⟩ <;> cases hi
    case await hi _ => rcases hi with ⟨hi, -⟩ | ⟨hi, -⟩ <;> cases hi

theorem Posted.step_leaving (h : b.Posted g) (hc : b.Custody g.takings) (hf : b.Fitted)
    (hp : ∀ e, (b.account e).Placed) (hgu : b.Guarded) (hs : Seated b.live b.leaving g)
    (ht : b.codes[t]? = some (i :: rest)) (he : i.Effect { b with codes := b.codes.set t rest } b' next)
    (hl : i.Leads next) (hout : Outcome { b with codes := b.codes.set t rest } g i b' g' next)
    (hin : b.InTime (.step t)) {e : Fin n} (hrun : e ∈ b'.running) {w : WorkerId}
    (hw : lastTaker g'.takings e = some w) {code : List (Instr n)} (hcode : code ∈ b'.codes.set t (next ++ rest))
    {x : Instr n} (hx : x ∈ code) (hq : quits w x = true) : ∃ j ∈ code, stays e j = true ∨ abandons w j = true := by
  have hmem := List.mem_of_getElem? ht
  obtain ⟨t', ht'⟩ := List.getElem?_of_mem hcode
  rcases hc.before hout hrun hw with ⟨hold, hsettle, hwold, -, -⟩ | ⟨hi, hnext, -⟩
  · have hrest : ∀ j ∈ i :: rest, quits w j = true → ∃ j ∈ next ++ rest, stays e j = true ∨ abandons w j = true := by
      intro j hj hq
      obtain ⟨y, hy, hends⟩ := h.leaving e hold w hwold _ hmem j hj hq
      rcases List.mem_cons.1 hy with rfl | hy
      · rcases hends with hstays | habandons
        · have hready : ∀ w', readies w' e y = false := by
            intro w'
            by_contra hr
            have hnone := (hf _ hmem).1.quits_of_readies (Bool.not_eq_false _ ▸ hr) w hj
            rw [hq] at hnone
            cases hnone
          obtain ⟨z, hz, hstays⟩ := hl.stays hstays hsettle hready
          exact ⟨z, List.mem_append_left _ hz, Or.inl hstays⟩
        · obtain rfl := eq_of_abandons habandons
          obtain ⟨z, hz, hstays⟩ := h.stays_of_abandon hp ht hf hout hin hold hwold
          exact ⟨z, List.mem_append_left _ hz, Or.inl hstays⟩
      · exact ⟨y, List.mem_append_right _ hy, hends⟩
    rcases codes_after ht he ht' with ⟨-, rfl⟩ | ⟨-, hother⟩ | hb
    · rcases List.mem_append.1 hx with hx | hx
      · rcases Leads.quits hl hx hq with ⟨-, rfl⟩ | hqi
        · exact ⟨.takeAbandoned w, by simp, by simp⟩
        · exact hrest i (List.mem_cons_self ..) hqi
      · exact hrest x (List.mem_cons_of_mem _ hx) hq
    · exact h.leaving e hold w hwold code (List.mem_of_getElem? hother) x hx hq
    · rcases hb with ⟨w', rfl⟩ | rfl <;> simp at hx <;> rcases hx with rfl | rfl <;> simp at hq
  · obtain ⟨rfl, hguards⟩ := guards_of_seeking hgu hf hi ht
    rcases codes_after ht he ht' with ⟨-, rfl⟩ | ⟨-, hother⟩ | hb
    · rw [hnext] at hx
      simp at hx
      rcases hx with rfl | rfl <;> simp at hq
    · obtain ⟨y, hy, hab⟩ := abandons_mem_of_quits hs hf hguards (List.mem_of_getElem? hother) hx hq
      exact ⟨y, hy, Or.inr hab⟩
    · rcases hb with ⟨w', rfl⟩ | rfl <;> simp at hx <;> rcases hx with rfl | rfl <;> simp at hq

theorem Posted.step (h : b.Posted g) (hc : b.Custody g.takings) (hord : b.Orderly) (hf : b.Fitted)
    (hp : ∀ e, (b.account e).Placed) (hgu : b.Guarded) (hs : Seated b.live b.leaving g)
    (ht : b.codes[t]? = some (i :: rest)) (he : i.Effect { b with codes := b.codes.set t rest } b' next)
    (hl : i.Leads next) (hout : Outcome { b with codes := b.codes.set t rest } g i b' g' next)
    (hone : ∀ e, b'.running.count e ≤ 1) (hin : b.InTime (.step t))
    (hnote : ∀ w e, i = .noteAllocated w e → next ≠ []) :
    ({ b' with codes := b'.codes.set t (next ++ rest) } : Books n).Posted g' where
  readied _ _ := h.step_readied hp hone ht he hl hout
  held _ _ := h.step_held hp hone ht hout
  exposed _ _ := h.step_exposed hord hs hf ht he hl hout
  tended _ hrun _ hw hg _ hcode := h.step_tended hc hord hf ht he hl hout hnote hrun hw hg hcode
  seated _ hrun _ hw := h.step_seated hc hf hgu hs ht hout hrun hw
  leaving _ hrun _ hw _ hcode _ hx := h.step_leaving hc hf hp hgu hs ht he hl hout hin hrun hw hcode hx
  alone _ hrun _ hrun' _ := h.step_alone hc hf hgu ht hout hrun hrun'

end Books

namespace Instr

/-- Whether an instruction has to do with the stay of an executor on a worker, or with the place of a worker. -/
def moors : Instr n → Bool
  | .nextSlice _ | .openSlice _ _ | .noteAllocated _ _ | .publish _ _ _ | .closeSlice _ _ _ | .resetTimer _ _ | .settle _
  | .takeAbandoned _ | .decideRespawn _ | .vacate _ _ => true
  | _ => false

variable {w : WorkerId} {e : Fin n}

theorem moors_of_readies (i : Instr n) (h : readies w e i = true) : i.moors = true := by
  unfold readies at h
  split at h <;> first | rfl | cases h

theorem moors_of_closes (i : Instr n) (h : closes w e i = true) : i.moors = true := by
  unfold closes at h
  split at h <;> first | rfl | cases h

theorem moors_of_stays (i : Instr n) (h : stays e i = true) : i.moors = true := by
  unfold stays at h
  split at h <;> first | rfl | cases h

theorem moors_of_abandons (i : Instr n) (h : abandons w i = true) : i.moors = true := by
  unfold abandons at h
  split at h <;> first | rfl | cases h

theorem moors_of_quits (i : Instr n) (h : quits w i = true) : i.moors = true := by
  unfold quits at h
  split at h <;> first | rfl | cases h

theorem moors_of_tends (i : Instr n) (h : tends w e i = true) : i.moors = true := by
  rcases Bool.or_eq_true_iff.1 h with h | h
  · exact moors_of_stays i h
  · exact moors_of_closes i h

end Instr

/-- The work of an executor has nothing to do with its stay. -/
theorem WorkAction.Becomes.moors {w : WorkerId} {e : Fin n} {next : List (Instr n)} {a : WorkAction n}
    (h : a.Becomes w e next) : ∀ x ∈ next, x.moors = false := by
  cases a with
  | call c => cases h; simp [Instr.moors]
  | sleep nanos => obtain ⟨deadline, rfl⟩ := h; simp [Instr.moors]
  | observe o => cases h; simp [Instr.moors]
  | allocate bytes => cases h; simp [Instr.moors]
  | finish result => cases h; simp [Instr.moors]

namespace Books

variable {b b' : Books n} {g g' : Gear n} {t : ThreadId}

/-- What has nothing to do with stays and places may come and go. -/
theorem Posted.recode (h : b.Posted g) {l : List (List (Instr n))}
    (hcodes : ∀ code' ∈ l, code'.filter moors = [] ∨ ∃ code ∈ b.codes, code'.filter moors = code.filter moors)
    (hcount : ∀ p : Instr n → Bool, (∀ x, p x = true → x.moors = true) → l.flatten.countP p ≤ b.todo.countP p) :
    ({ b with codes := l } : Books n).Posted g := by
  have hguards : ∀ w, ({ b with codes := l } : Books n).Guards w → b.Guards w := fun w hg =>
    hg.imp_right fun hpos => Nat.lt_of_lt_of_le hpos (hcount _ moors_of_abandons)
  have hmem : ∀ {code' : List (Instr n)}, code' ∈ l → ∀ {x : Instr n}, x ∈ code' → x.moors = true →
      ∃ code ∈ b.codes, x ∈ code ∧ ∀ y ∈ code, y.moors = true → y ∈ code' := by
    intro code' hcode' x hx hm
    have hx' : x ∈ code'.filter moors := List.mem_filter.2 ⟨hx, hm⟩
    rcases hcodes code' hcode' with hnil | ⟨code, hcode, heq⟩
    · rw [hnil] at hx'
      cases hx'
    · refine ⟨code, hcode, (List.mem_filter.1 (heq ▸ hx')).1, fun y hy hm => ?_⟩
      exact (List.mem_filter.1 (heq ▸ List.mem_filter.2 ⟨hy, hm⟩ : y ∈ code'.filter moors)).1
  constructor
  case readied => exact fun w e hpos => h.readied w e (Nat.lt_of_lt_of_le hpos (hcount _ moors_of_readies))
  case held => exact h.held
  case exposed =>
    exact fun w e hpos hg => h.exposed w e (Nat.lt_of_lt_of_le hpos (hcount _ moors_of_closes)) (hguards w hg)
  case tended =>
    intro e hrun w hw hg code' hcode' hnext
    obtain ⟨code, hcode, hnext, hback⟩ := hmem hcode' hnext rfl
    obtain ⟨x, hx, htends⟩ := h.tended e hrun w hw (hguards w hg) code hcode hnext
    exact ⟨x, hback x hx (moors_of_tends x htends), htends⟩
  case seated => exact h.seated
  case leaving =>
    intro e hrun w hw code' hcode' x hx hq
    obtain ⟨code, hcode, hx, hback⟩ := hmem hcode' hx (moors_of_quits x hq)
    obtain ⟨y, hy, hends⟩ := h.leaving e hrun w hw code hcode x hx hq
    exact ⟨y, hback y hy (hends.elim (moors_of_stays y) (moors_of_abandons y)), hends⟩
  case alone => exact h.alone

/-- Every executor that runs has a worker of its own that has a slot, after every action that is in time. -/
theorem Posted.goes (h : b.Posted g) (hc : b.Custody g.takings) (hord : b.Orderly) (hf : b.Fitted)
    (hp : ∀ e, (b.account e).Placed) (hgu : b.Guarded) (hs : Seated b.live b.leaving g) {a : Action n}
    (hg : Goes b g a b' g') (hin : b.InTime a)
    (hnote : ∀ (t : ThreadId) (w : WorkerId) (e : Fin n) (rest : List (Instr n)), a = .step t →
      b.codes[t]? = some (.noteAllocated w e :: rest) → b'.codes[t]? ≠ some rest) : b'.Posted g' := by
  have hone : ∀ e, b'.running.count e ≤ 1 := fun e => running_le_one ((hp e).move (hg.moves.account hord e))
  cases hg with
  | rest => exact h
  | advance => exact ⟨h.readied, h.held, h.exposed, h.tended, h.seated, h.leaving, h.alone⟩
  | arrive c =>
    refine h.recode (fun code hcode => ?_) fun p hp => ?_
    · rcases List.mem_append.1 hcode with hcode | hcode
      · exact Or.inr ⟨code, hcode, rfl⟩
      · rw [List.mem_singleton.1 hcode]
        exact Or.inl rfl
    · have hz : p (.call c) = false := by
        by_contra hpc
        exact absurd (hp _ (Bool.not_eq_false _ ▸ hpc)) (by simp [moors])
      simp [todo, hz]
  | perform t w e rest next a ht ha =>
    have hnone := ha.moors
    refine h.recode (fun code hcode => ?_) fun p hp => ?_
    · rcases List.mem_or_eq_of_mem_set hcode with hcode | rfl
      · exact Or.inr ⟨code, hcode, rfl⟩
      · refine Or.inr ⟨_, List.mem_of_getElem? ht, ?_⟩
        rw [List.filter_append, List.filter_eq_nil_iff.2 fun x hx => by simp [hnone x hx],
          List.filter_cons_of_neg (by simp [moors])]
        rfl
    · have hz : next.countP p = 0 := List.countP_eq_zero.2 fun x hx hpx =>
        absurd ((hp x hpx).symm.trans (hnone x hx)) (by decide)
      have hcount := countP_replace p ht next
      show ({ b with codes := b.codes.set t (next ++ rest) } : Books n).todo.countP p ≤ _
      omega
  | tear t e o rest ht hfail =>
    refine h.recode (fun code hcode => ?_) fun p _ => countP_tear p ht
    rcases List.mem_or_eq_of_mem_set hcode with hcode | rfl
    · exact Or.inr ⟨code, hcode, rfl⟩
    · exact Or.inl rfl
  | step t i rest next b' g' ht hw he hl hd =>
    refine h.step hc hord hf hp hgu hs ht he hl (outcome hw he hl hd) hone hin ?_
    rintro w e rfl rfl
    exact hnote t w e rest rfl ht (codes_self ht he)

end Books

/-! ## How many there are -/

namespace Books

variable {b : Books n} {g : Gear n}

/-- The workers with which executors run. -/
def takers (b : Books n) (g : Gear n) : List WorkerId := b.running.filterMap (lastTaker g.takings)

/-- Workers that wait for an executor have slots. -/
theorem Idles.waiters_subset (h : b.Idles g) (hf : b.Fitted) (hgu : b.Guarded) (hs : Seated b.live b.leaving g) :
    b.waiters ⊆ g.slots.filterMap id := by
  intro w hw
  obtain ⟨t, ht⟩ := h.waiter hw
  obtain ⟨⟨k, hk⟩, -⟩ := seat_of_guards hs hf (guards_of_seeking hgu hf (Or.inr rfl) ht).2
  exact List.mem_filterMap.2 ⟨_, List.mem_of_getElem? hk, rfl⟩

theorem Posted.takers_subset (h : b.Posted g) : b.takers g ⊆ g.slots.filterMap id := by
  intro w hw
  obtain ⟨e, he, htaker⟩ := List.mem_filterMap.1 hw
  obtain ⟨k, hk⟩ := h.seated e he w htaker
  exact List.mem_filterMap.2 ⟨_, List.mem_of_getElem? hk, rfl⟩

theorem Custody.length_takers (h : b.Custody g.takings) : (b.takers g).length = b.running.length := by
  refine List.length_filterMap_eq_countP.trans (List.countP_eq_length.2 fun e he => ?_)
  obtain ⟨w, hw, -⟩ := h.taken e he
  simp [hw]

theorem Posted.nodup_takers (h : b.Posted g) (hp : ∀ e, (b.account e).Placed) : (b.takers g).Nodup := by
  rw [takers, List.nodup_iff_pairwise_ne, List.pairwise_filterMap]
  refine (running_nodup hp).imp_of_mem ?_
  rintro e e' he he' hne w hw w' hw' rfl
  exact hne (h.alone e he e' he' w hw hw')

/-- Workers that run an executor, or wait for one, are different, and have slots. -/
theorem Posted.crowd (h : b.Posted g) (hc : b.Custody g.takings) (hi : b.Idles g) (ho : b.Orderly)
    (hp : ∀ e, (b.account e).Placed) (hf : b.Fitted) (hgu : b.Guarded) (hs : Seated b.live b.leaving g) :
    g.idle + b.running.length ≤ g.workerCount := by
  have hapart : (b.waiters).Disjoint (b.takers g) := by
    intro w hw hw'
    obtain ⟨t, ht⟩ := hi.waiter hw
    obtain ⟨e, he, htaker⟩ := List.mem_filterMap.1 hw'
    obtain ⟨x, hx, htends⟩ := h.tended e he w htaker (guards_of_seeking hgu hf (Or.inr rfl) ht).2 _
      (List.mem_of_getElem? ht) (by simp)
    simp only [List.mem_cons, List.not_mem_nil, or_false] at hx
    rcases hx with rfl | rfl <;> simp at htends
  have hdistinct : (b.waiters ++ b.takers g).Nodup := (hi.nodup_waiters ho).append (h.nodup_takers hp) hapart
  have hsub : b.waiters ++ b.takers g ⊆ g.slots.filterMap id :=
    List.append_subset.2 ⟨hi.waiters_subset hf hgu hs, h.takers_subset⟩
  calc g.idle + b.running.length = (b.waiters ++ b.takers g).length := by
        rw [List.length_append, hi.length_waiters, hc.length_takers]
    _ ≤ (g.slots.filterMap id).length := (hdistinct.subperm hsub).length_le
    _ = g.workerCount := List.length_filterMap_eq_countP.trans hs.count.symm

end Books

namespace Pool

/-! ## What holds after every run -/

/-- Those who run are on workers of their own that have slots. -/
structure Stationed (s : Pool n) : Prop where
  posted : ∀ e ∈ s.running, ∃ w ∈ s.posted, lastTaker s.takings e = some w
  distinct : ∀ e ∈ s.running, ∀ e' ∈ s.running, lastTaker s.takings e = lastTaker s.takings e' → e = e'
  /-- Whoever is counted as idle is another worker. -/
  crowd : s.idle + s.running.length ≤ s.workerCount

/-- What an invariant of the stays comes to, as long as the watchdog comes in time. -/
structure Settled (s : Pool n) : Prop extends s.Bookkept where
  custody : s.books.Custody s.takings
  guarded : s.books.Guarded
  posted : s.books.Posted s.gear

theorem create_settled (config : SchedulerConfig) (context : Metrics.Context) (log : LogFilter)
    (hosts : Vector Host n) : (create config context log hosts).Settled := by
  refine ⟨create_bookkept config context log hosts, (create_kept config context log hosts).custody, ?_, ?_⟩ <;>
    rw [books_create]
  · exact .start
  · constructor <;> simp [Books.start, Books.todo]

theorem Settled.act {s : Pool n} (h : s.Settled) (ho : s.books.Orderly) (hp : ∀ e, (s.books.account e).Placed)
    {a : Action n} (ha : s.inTime a = true) : (s.act a).Settled := by
  have hg := act_goes s a
  have hkept : s.Kept := ⟨h.toManning, h.custody⟩
  have hc := h.custody
  rw [← takings_gear] at hc
  exact ⟨h.toBookkept.act ho a, (hkept.act ho a).custody, h.guarded.goes h.fitted ho hg (books_inTime ha),
    h.posted.goes hc ho h.fitted hp h.guarded h.seated hg (books_inTime ha) (act_noteAllocated ho)⟩

theorem Settled.stationed {s : Pool n} (h : s.Settled) (ho : s.books.Orderly)
    (hp : ∀ e, (s.books.account e).Placed) : s.Stationed := by
  have hc := h.custody
  rw [← takings_gear] at hc
  have htaker : ∀ e ∈ s.running, ∃ w, lastTaker s.takings e = some w := fun e he =>
    (h.custody.taken e he).imp fun _ => And.left
  have hposts := h.posted
  constructor
  case posted =>
    intro e he
    obtain ⟨w, hw⟩ := htaker e he
    exact ⟨w, mem_posted.2 (hposts.seated e he w (takings_gear s ▸ hw)), hw⟩
  case distinct =>
    intro e he e' he' heq
    obtain ⟨w, hw⟩ := htaker e he
    exact hposts.alone e he e' he' w (takings_gear s ▸ hw) (takings_gear s ▸ heq ▸ hw)
  case crowd => exact hposts.crowd hc h.idles ho hp h.fitted h.guarded h.seated

/-- The counts of the workers agree with the slots after every run, and whoever runs is on a worker of its own that has a
slot if the watchdog takes every slice over in time. -/
theorem run_posts (config : SchedulerConfig) (context : Metrics.Context) (log : LogFilter) (hosts : Vector Host n)
    (actions : List (Action n)) :
    ((create config context log hosts).run actions).Tallied config.workerCount.toNat ∧
      ((create config context log hosts).Along (fun s a => s.inTime a) actions →
        ((create config context log hosts).run actions).Stationed) := by
  constructor
  · have hinv := run_created (R := fun _ _ => True)
      (P := fun s => s.Bookkept ∧ s.slots.length = config.workerCount.toNat)
      (fun s a ho _ h _ => ⟨h.1.act ho a, (Books.slots_goes (act_goes s a)).trans h.2⟩)
      ⟨create_bookkept config context log hosts, List.length_replicate⟩ (along_true _ actions)
    exact hinv.1.tallied hinv.2
  · intro hin
    have hsettled := run_created (R := fun s a => s.inTime a) (fun s a ho hp h ha => h.act ho hp ha)
      (create_settled config context log hosts) hin
    exact hsettled.stationed (run_orderly config context log hosts actions) (run_placed config context log hosts actions)

/-- The watchdog, thread 1, is about to report the worker of the first executor and to retire it. -/
def retireDue : List (Action 2) :=
  .call (.submit first) :: paces 0 2 ++ paces 2 10 ++ paces 1 3 ++ .advance 20000000000 :: paces 1 8

/-- The worker is retired within its slice and replaced, and its replacement takes the executor again. -/
def replacedInTime : List (Action 2) := retireDue ++ paces 1 9 ++ .call (.submit first) :: paces 4 2 ++ paces 3 3

theorem posts_replacedInTime :
    (crew 1).Along (fun s a => s.inTime a) replacedInTime ∧
      ((crew 1).run replacedInTime).running = [0] ∧ ((crew 1).run replacedInTime).posted = [1] ∧
      ((crew 1).run replacedInTime).retired 0 = true ∧ ((crew 1).run replacedInTime).Tallied 1 ∧
      ((crew 1).run replacedInTime).Stationed := by
  have hin : (crew 1).Along (fun s a => s.inTime a) replacedInTime := by decide +kernel
  have hposts : ((crew 1).run replacedInTime).Tallied 1 ∧ (_ → ((crew 1).run replacedInTime).Stationed) :=
    run_posts { workerCount := 1 } _ _ _ replacedInTime
  exact ⟨hin, by decide +kernel, by decide +kernel, by decide +kernel, hposts.1, hposts.2 hin⟩

/-- The work ends before that, and the worker waits for another executor when it is retired. So does its replacement. -/
def retiredLate : List (Action 2) := retireDue ++ .work 2 (.finish .ok) :: paces 2 8 ++ paces 1 5 ++ paces 3 3

/-- Both executors are submitted, and each of the two workers takes one of them. -/
def bothTaken : List (Action 2) :=
  retiredLate ++ .call (.submit first) :: paces 4 2 ++ .call (.submit second) :: paces 5 2 ++ paces 2 1 ++ paces 3 1

/-- A worker that ended its slice just before it is retired goes on without a slot: more workers are idle than are
counted, and then more executors run, one of them on a worker that is retired. -/
theorem retired_goes_on :
    (((crew 1).run retiredLate).workerCount = 1 ∧ ((crew 1).run retiredLate).idle = 2 ∧
      ((crew 1).run retiredLate).pending (quits 0) = 0) ∧
    ((crew 1).run bothTaken).workerCount = 1 ∧ ((crew 1).run bothTaken).running = [0, 1] ∧
      lastTaker ((crew 1).run bothTaken).takings 0 = some 0 ∧ ((crew 1).run bothTaken).retired 0 = true ∧
      ((crew 1).run bothTaken).pending (quits 0) = 0 := by
  decide +kernel

end Pool

end FairShare.Scheduler
