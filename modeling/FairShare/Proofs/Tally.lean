import FairShare.Proofs.History
import FairShare.Proofs.Stopping

/-!
# The counts of the workers

The number of workers that are counted is the number of slots that are taken, the number of those that are idle is the
number of threads that wait for an executor, and a worker is retired once and leaves the slot that it was started for.
-/

namespace FairShare.Scheduler

variable {n : Nat}

open Instr

namespace Instr

/-- Whether an instruction waits for an executor to be queued. -/
@[simp] def idles : Instr n → Bool
  | .awaitWork _ => true
  | _ => false

end Instr

/-- Whether an event tells that a worker was retired. -/
@[simp] def Event.retires (w : WorkerId) : Event n → Bool
  | .retired w' => w' = w
  | _ => false

/-- The slot of which an event tells that another worker had it. -/
def Event.replaced? : Event n → Option Nat
  | .reported (.slotReplaced slot) => some slot
  | _ => none

theorem Event.replaced_eq_none (v : Event n) (h : v.isTelling = false) : v.replaced? = none := by
  unfold replaced?
  split
  · cases h
  · rfl

/-! ## What the counters count -/

namespace Seated

variable {live : List Bool} {leaving : WorkerId → Nat} {g : Gear n}

/-- No worker has two slots. -/
theorem distinct (h : Seated live leaving g) : (g.slots.filterMap id).Nodup := by
  rw [List.nodup_iff_pairwise_ne, List.pairwise_filterMap, List.pairwise_iff_getElem]
  rintro k k' hk hk' hlt w hw w' hw' rfl
  have hseat := h.seated k w (by rw [List.getElem?_eq_getElem hk]; exact congrArg some hw)
  have hseat' := h.seated k' w (by rw [List.getElem?_eq_getElem hk']; exact congrArg some hw')
  rw [hseat] at hseat'
  exact Nat.ne_of_lt hlt (Option.some.inj hseat')

end Seated

namespace Books

variable {b b' : Books n} {g g' : Gear n} {t : ThreadId} {i : Instr n} {rest next : List (Instr n)}

theorem idles_begins (code : List (Instr n)) (h : Begins code) : code.countP idles = 0 := by
  rcases h with ⟨w, rfl⟩ | rfl <;> simp

theorem not_idles_next (hl : i.Leads next) (hseek : ∀ w, i ≠ .seekWork w) (hawait : ∀ w, i ≠ .awaitWork w) :
    next.countP idles = 0 := by
  rw [List.countP_eq_zero]
  intro x hx hp
  cases x <;> simp only [idles, Bool.false_eq_true] at hp
  case awaitWork w =>
    cases hl.yields hx with
    | seekAwait => exact hseek w rfl
    | await => exact hawait w rfl

/-- As many workers are idle as threads wait for an executor. -/
structure Idles (b : Books n) (g : Gear n) : Prop where
  count : g.idle = b.todo.countP idles
  /-- A thread that waits for an executor does nothing else. -/
  waits : ∀ code ∈ b.codes, ∀ w, .awaitWork w ∈ code → code = [.awaitWork w, .nextSlice w]

theorem Idles.waits_step (h : b.Idles g) (hf : b.Fitted) (hmem : i :: rest ∈ b.codes) (hl : i.Leads next) {w : WorkerId}
    (hw : .awaitWork w ∈ next ++ rest) : next ++ rest = [.awaitWork w, .nextSlice w] := by
  rcases List.mem_append.1 hw with hx | hx
  · have hfits : i.Fits rest := (hf _ hmem).1
    cases hl.yields hx with
    | seekAwait =>
      obtain rfl : rest = _ := hfits
      rcases hl with ⟨e, rfl⟩ | rfl | rfl <;> simp at hx
      rfl
    | await =>
      obtain rfl : rest = _ := hfits
      rcases hl with ⟨e, rfl⟩ | rfl | rfl <;> simp at hx
      rfl
  · have hcode := h.waits _ hmem w (List.mem_cons_of_mem _ hx)
    obtain ⟨-, rfl⟩ := List.cons.inj hcode
    simp at hx

theorem Idles.step (h : b.Idles g) (hf : b.Fitted) (ht : b.codes[t]? = some (i :: rest))
    (he : i.Effect { b with codes := b.codes.set t rest } b' next) (hl : i.Leads next)
    (hout : Outcome { b with codes := b.codes.set t rest } g i b' g' next) :
    ({ b' with codes := b'.codes.set t (next ++ rest) } : Books n).Idles g' := by
  constructor
  case waits =>
    intro code hcode w hw
    obtain ⟨t', ht'⟩ := List.getElem?_of_mem hcode
    rcases codes_after ht he ht' with ⟨-, rfl⟩ | ⟨-, hother⟩ | ⟨w', rfl⟩ | rfl
    · exact h.waits_step hf (List.mem_of_getElem? ht) hl hw
    · exact h.waits code (List.mem_of_getElem? hother) w hw
    · simp at hw
    · simp at hw
  case count =>
    have hcount := countP_step idles_begins ht he
    have hpos := countP_head_le idles ht
    have h := h.count
    generalize ({ b' with codes := b'.codes.set t (next ++ rest) } : Books n).todo.countP idles = after at hcount ⊢
    have hkeep : g'.idle = g.idle → (∀ w, i ≠ .seekWork w) → (∀ w, i ≠ .awaitWork w) → g'.idle = after := by
      intro hidle hseek hawait
      have hz := not_idles_next hl hseek hawait
      have hi : [i].countP idles = 0 := by cases i <;> first | rfl | exact absurd rfl (hawait _)
      omega
    have hturn : ∀ (idle : Nat) (w : WorkerId),
        (i = .seekWork w ∧ idle = g.idle ∨ i = .awaitWork w ∧ idle = g.idle - 1) → next.countP idles = 0 →
        idle = after := by
      rintro idle w (⟨rfl, rfl⟩ | ⟨rfl, rfl⟩) hz <;> simp at hcount hpos <;> omega
    cases hout
    case take w e idle hi htake => exact hturn idle w hi (by simp)
    case close w idle hp hi htake => exact hturn idle w hi (by simp)
    case await w idle hp hi htake =>
      show idle = after
      rcases hi with ⟨rfl, rfl⟩ | ⟨rfl, rfl⟩ <;> simp at hcount <;> omega
    all_goals exact hkeep rfl (by simp) (by simp)

theorem Idles.goes (h : b.Idles g) (hf : b.Fitted) {a : Action n} (hg : Goes b g a b' g') : b'.Idles g' := by
  have hcount : g.idle = _ := h.count
  cases hg with
  | rest => exact h
  | advance => exact ⟨h.count, h.waits⟩
  | arrive c =>
    refine ⟨?_, fun code hcode w hw => ?_⟩
    · show g.idle = _
      rw [countP_arrive]
      simpa using hcount
    · rcases List.mem_append.1 hcode with hcode | hcode
      · exact h.waits code hcode w hw
      · rw [List.mem_singleton.1 hcode] at hw
        simp at hw
  | perform t w e rest next a ht ha =>
    refine ⟨?_, fun code hcode w hw => ?_⟩
    · have hreplace := countP_replace idles ht next
      have hz := not_idles_next ha.leads (by simp) (by simp)
      simp at hreplace
      show g.idle = _
      omega
    · rcases List.mem_or_eq_of_mem_set hcode with hcode | rfl
      · exact h.waits code hcode w hw
      · exact h.waits_step hf (List.mem_of_getElem? ht) ha.leads hw
  | step t i rest next b' g' ht hw he hl hd => exact Idles.step h hf ht he hl (outcome hw he hl hd)
  | tear t e o rest ht hfail =>
    have hz : (Instr.account e o :: rest).countP idles = 0 := by
      rw [List.countP_eq_zero]
      intro x hx hp
      cases x <;> simp only [idles, Bool.false_eq_true] at hp
      case awaitWork w => exact absurd (h.waits _ (List.mem_of_getElem? ht) w hx) (by simp)
    refine ⟨?_, fun code hcode w hw => ?_⟩
    · have hset := countP_flatten_set idles ht []
      rw [hz] at hset
      show g.idle = (b.codes.set t []).flatten.countP _
      have hcount : g.idle = b.codes.flatten.countP _ := hcount
      simp only [List.countP_nil] at hset
      omega
    · rcases List.mem_or_eq_of_mem_set hcode with hcode | rfl
      · exact h.waits code hcode w hw
      · cases hw

end Books

/-! ## Who has a slot -/

/-- Whoever has a slot is not retired, unless it is about to leave it, or an observer of the host broke that off. -/
def Occupied (live : List Bool) (leaving : WorkerId → Nat) (g : Gear n) : Prop :=
  ∀ (k : Nat) (w : WorkerId), g.slots[k]? = some (some w) →
    live[w]? = some true ∨ 0 < leaving w ∨ ∃ e, (g.host e).sink = .host true

namespace Occupied

variable {live live' : List Bool} {leaving leaving' : WorkerId → Nat} {g g' : Gear n}

/-- The workers stay where they are. -/
theorem keep (h : Occupied live leaving g) (hslots : g'.slots = g.slots) (hhost : g'.host = g.host)
    (hlive : ∀ w : WorkerId, live[w]? = some true → live'[w]? = some true ∨ 0 < leaving' w)
    (hleaving : ∀ w, leaving w ≤ leaving' w) : Occupied live' leaving' g' := by
  intro k w hk
  rw [hslots] at hk
  rw [hhost]
  rcases h k w hk with hup | hq | hf
  · exact (hlive w hup).imp_right Or.inl
  · exact Or.inr (Or.inl (Nat.lt_of_lt_of_le hq (hleaving w)))
  · exact Or.inr (Or.inr hf)

/-- A worker is started for a slot. -/
theorem hire (h : Occupied live leaving g) (hs : g.seats.length = live.length) (slot : Nat)
    (hleaving : ∀ w, leaving w ≤ leaving' w) : Occupied (live ++ [true]) leaving' (g.hire slot) := by
  intro k w hk
  have hk : (g.slots.set slot (some g.seats.length))[k]? = some (some w) := hk
  by_cases hks : slot = k
  · subst hks
    have hlt := (List.getElem?_eq_some_iff.1 hk).1
    rw [List.length_set] at hlt
    rw [List.getElem?_set_self hlt] at hk
    obtain rfl : g.seats.length = w := by simpa using hk
    exact Or.inl (by rw [hs]; simp)
  · rw [List.getElem?_set_ne hks] at hk
    rcases h k w hk with hup | hq | hf
    · exact Or.inl (by rw [List.getElem?_append_left (List.getElem?_eq_some_iff.1 hup).1]; exact hup)
    · exact Or.inr (Or.inl (Nat.lt_of_lt_of_le hq (hleaving w)))
    · exact Or.inr (Or.inr hf)

/-- A worker leaves its slot. -/
theorem leave (h : Occupied live leaving g) (hs : Seated live leaving g) {w : WorkerId} {slot : Nat}
    (hslot : g.slots[slot]? = some (some w)) (hleaving : ∀ w', w' ≠ w → leaving w' ≤ leaving' w') :
    Occupied live leaving' (g.leave slot) := by
  intro k w' hk
  have hk : (g.slots.set slot none)[k]? = some (some w') := hk
  by_cases hks : slot = k
  · subst hks
    rw [List.getElem?_set_self (List.getElem?_eq_some_iff.1 hslot).1] at hk
    cases hk
  · rw [List.getElem?_set_ne hks] at hk
    have hne : w' ≠ w := by
      rintro rfl
      exact hks (Option.some.inj ((hs.seated slot w' hslot).symm.trans (hs.seated k w' hk)))
    rcases h k w' hk with hup | hq | hf
    · exact Or.inl hup
    · exact Or.inr (Or.inl (Nat.lt_of_lt_of_le hq (hleaving w' hne)))
    · exact Or.inr (Or.inr hf)

end Occupied

namespace Books

variable {b b' : Books n} {g g' : Gear n} {t : ThreadId} {i : Instr n} {rest next : List (Instr n)}

theorem occupied_goes (h : Occupied b.live b.leaving g) (hs : Seated b.live b.leaving g) {a : Action n}
    (hg : Goes b g a b' g') : Occupied b'.live b'.leaving g' := by
  cases hg with
  | rest => exact h
  | advance => exact h
  | arrive c => exact h.keep rfl rfl (fun w => Or.inl) fun w => by simp [leaving, todo]
  | perform t w e rest next a ht ha =>
    refine h.keep rfl rfl (fun w => Or.inl) fun w' => ?_
    have hcount := countP_replace (quits w') ht next
    simp at hcount
    show b.todo.countP (quits w') ≤ ({ b with codes := b.codes.set t (next ++ rest) } : Books n).todo.countP (quits w')
    omega
  | tear t e o rest ht hfail =>
    intro k w hk
    exact Or.inr (Or.inr ⟨e, hfail⟩)
  | step t i rest next b' g' ht hw he hl hd =>
    have hq := leaving_step ht he
    have hout := outcome hw he hl hd
    have hmem := mem_todo ht
    show Occupied b'.live ({ b' with codes := b'.codes.set t (next ++ rest) } : Books n).leaving g'
    generalize ({ b' with codes := b'.codes.set t (next ++ rest) } : Books n).leaving = leaving' at hq ⊢
    have hkeep : g'.slots = g.slots → g'.host = g.host → (∀ w, [i].countP (quits w) ≤ next.countP (quits w)) →
        Occupied b'.live leaving' g' := by
      intro hslots hhost hle
      refine h.keep hslots hhost (fun w hup => ?_) fun w => ?_
      · refine (hout.live hup).imp_right ?_
        rintro ⟨-, rfl, rfl, -⟩
        have := hq w
        simp at this
        omega
      · have := hq w
        have := hle w
        omega
    -- Only a worker that leaves its slot has one instruction less to carry out for that.
    have hothers : ∀ w respawn, i = .vacate w respawn → next = [] → ∀ w', w' ≠ w → b.leaving w' ≤ leaving' w' := by
      rintro w respawn rfl rfl w' hne
      have := hq w'
      simp [Ne.symm hne] at this
      omega
    cases hout
    case hire e slot current codes runtime arrival hp hst hh hr hslot =>
      exact h.hire hs.seats slot fun w => by simpa using Nat.le_of_eq (hq w).symm
    case leave w slot current codes hh hseat hslot => exact h.leave hs hslot (hothers w false rfl rfl)
    case replace w slot current codes hh hseat hslot =>
      exact (h.leave hs hslot (hothers w true rfl rfl)).hire hs.seats slot fun _ => Nat.le_refl _
    case unseated w respawn current codes hh hseat =>
      obtain ⟨-, k, hk⟩ := leaves_seat (w := w) hs hmem (by simp)
      rw [hs.seated k w hk] at hseat
      cases hseat
    case displaced w respawn slot current codes hh hseat hslot =>
      obtain ⟨-, k, hk⟩ := leaves_seat (w := w) hs hmem (by simp)
      rw [hs.seated k w hk] at hseat
      cases hseat
      exact absurd hk hslot
    case take w e idle hi htake => rcases hi with ⟨rfl, -⟩ | ⟨rfl, -⟩ <;> exact hkeep rfl rfl (by simp)
    case close w idle hp hi htake => rcases hi with ⟨rfl, -⟩ | ⟨rfl, -⟩ <;> exact hkeep rfl rfl (by simp)
    case await w idle hp hi htake => rcases hi with ⟨rfl, -⟩ | ⟨rfl, -⟩ <;> exact hkeep rfl rfl (by simp)
    all_goals exact hkeep rfl rfl (by simp)

/-- A worker is retired once. -/
def Retires (b : Books n) (g : Gear n) : Prop :=
  ∀ w : WorkerId, g.deeds.countP (Event.retires w) = if b.live[w]? = some false then 1 else 0

theorem Retires.keep (h : b.Retires g) (hlive : b'.live = b.live ∨ b'.live = b.live ++ [true])
    (hdeeds : g'.deeds = g.deeds ∨ ∃ v : Event n, g'.deeds = g.deeds ++ [v] ∧ ∀ w, v.retires w = false) :
    b'.Retires g' := by
  intro w
  have hsame : g'.deeds.countP (Event.retires w) = g.deeds.countP (Event.retires w) := by
    rcases hdeeds with hdeeds | ⟨v, hdeeds, hv⟩
    · rw [hdeeds]
    · rw [hdeeds, List.countP_append, List.countP_singleton, hv w]
      rfl
  rw [hsame, h w]
  rcases hlive with hlive | hlive
  · rw [hlive]
  · rw [hlive]
    by_cases hlt : w < b.live.length
    · rw [List.getElem?_append_left hlt]
    · rw [List.getElem?_eq_none (Nat.le_of_not_lt hlt), List.getElem?_append_right (Nat.le_of_not_lt hlt),
        List.getElem?_singleton, if_neg (by simp), if_neg (by split <;> simp)]

theorem Retires.step (h : b.Retires g) (hout : Outcome b g i b' g' next) : b'.Retires g' := by
  cases hout
  case retire w hw =>
    intro w'
    show (g.deeds ++ [Event.retired w]).countP (Event.retires w') = if (b.live.set w false)[w']? = some false then 1 else 0
    rw [List.countP_append, h w', List.countP_singleton]
    by_cases hne : w = w'
    · subst hne
      rw [List.getElem?_set_self (List.getElem?_eq_some_iff.1 hw).1, hw]
      simp
    · rw [List.getElem?_set_ne hne]
      simp [hne]
  case take w e idle hi htake => exact h.keep (Or.inl htake.staff.2.1) (Or.inr ⟨_, rfl, fun _ => rfl⟩)
  case close w idle hp hi htake => exact h.keep (Or.inl htake.staff.2.1) (Or.inl rfl)
  case await w idle hp hi htake => exact h.keep (Or.inl htake.staff.2.1) (Or.inl rfl)
  case withdraw e =>
    refine h.keep (Or.inl ?_) (Or.inl rfl)
    split <;> rfl
  all_goals
    exact h.keep (by first | exact Or.inl rfl | exact Or.inr rfl)
      (by first | exact Or.inl rfl | exact Or.inr ⟨_, rfl, fun _ => rfl⟩)

theorem Retires.goes (h : b.Retires g) {a : Action n} (hg : Goes b g a b' g') : b'.Retires g' := by
  cases hg with
  | step t i rest next b' g' ht hw he hl hd =>
    have hr : b'.Retires g' := Retires.step (b := { b with codes := b.codes.set t rest }) h (outcome hw he hl hd)
    exact hr
  | _ => exact h

end Books

/-! ## Who waits -/

namespace Instr

/-- The worker whose thread waits for an executor by an instruction. -/
def waiter? : Instr n → Option WorkerId
  | .awaitWork w => some w
  | _ => none

theorem idles_eq (i : Instr n) : i.idles = i.waiter?.isSome := by
  cases i <;> rfl

theorem eq_of_waiter {i : Instr n} {w : WorkerId} (h : i.waiter? = some w) : i = .awaitWork w := by
  unfold waiter? at h
  split at h
  · rw [Option.some.inj h]
  · cases h

end Instr

namespace Books

variable {b : Books n} {g : Gear n}

/-- The workers whose threads wait for an executor. -/
def waiters (b : Books n) : List WorkerId := b.todo.filterMap waiter?

theorem Idles.length_waiters (h : b.Idles g) : b.waiters.length = g.idle := by
  rw [h.count]
  exact List.length_filterMap_eq_countP.trans (List.countP_congr fun i _ => by rw [idles_eq])

/-- The thread of a worker that waits for an executor does nothing else. -/
theorem Idles.waiter (h : b.Idles g) {w : WorkerId} (hw : w ∈ b.waiters) :
    ∃ t : ThreadId, b.codes[t]? = some [.awaitWork w, .nextSlice w] := by
  obtain ⟨i, hi, hwait⟩ := List.mem_filterMap.1 hw
  obtain rfl := eq_of_waiter hwait
  obtain ⟨code, hcode, hi⟩ := List.mem_flatten.1 hi
  obtain ⟨t, ht⟩ := List.getElem?_of_mem hcode
  exact ⟨t, h.waits code hcode w hi ▸ ht⟩

theorem Idles.nodup_waiters (h : b.Idles g) (ho : b.Orderly) : b.waiters.Nodup := by
  rw [List.nodup_iff_count_le_one]
  intro w
  have hle : b.todo.countP (fun i => i.waiter? == some w) ≤ b.todo.countP (nexts w) := by
    refine countP_flatten_le fun code hcode => ?_
    by_cases hpos : 0 < code.countP fun i => i.waiter? == some w
    · obtain ⟨i, hi, hwait⟩ := List.countP_pos_iff.1 hpos
      obtain rfl := eq_of_waiter (eq_of_beq hwait)
      rw [h.waits code hcode w hi]
      simp [waiter?]
    · omega
  calc b.waiters.count w = b.todo.countP (fun i => i.waiter? == some w) := by
        rw [List.count_eq_countP, waiters, List.countP_filterMap]
        refine List.countP_congr fun i _ => ?_
        cases i.waiter? <;> simp
    _ ≤ 1 := Nat.le_trans hle (ho.single w)

end Books

namespace Pool

/-- A worker that leaves finds itself in its slot. -/
theorem Manning.replaced {s : Pool n} (h : s.Manning) (a : Action n) :
    (s.act a).told Event.replaced? = s.told Event.replaced? := by
  have hquiet := Event.replaced_eq_none (n := n)
  cases a with
  | step t =>
    show (s.step t).told _ = _
    unfold step
    cases hcode : s.code t with
    | nil => rfl
    | cons i rest =>
      simp only
      split
      · rfl
      · rename_i hwait
        show ((s.setCode t rest).exec t i).1.told _ = (s.setCode t rest).told _
        clear hwait
        cases i
        case enqueue e =>
          simp only [exec]
          split
          · split
            · rename_i s' hs'
              refine (told_emit (hquiet _ rfl) s').trans ?_
              rcases told_enqueue hquiet _ e hs' with hs' | hs'
              · exact hs'
              · exact hs'.trans (((quiet_told hquiet).placid.chargeAll (fun s _ _ _ _ => told_emit rfl s) _ _).trans
                (told_ensureRunning _))
            · rfl
          · rfl
        case settle e =>
          have hexec : ((s.setCode t rest).exec t (.settle e)).1 = ((s.setCode t rest).settle e).1 := by
            simp only [exec]
            split <;> (rename_i h; rw [h])
          rw [hexec, (quiet_told hquiet).placid.settle, (quiet_told hquiet).placid.chargeAll fun s _ _ _ _ => told_emit rfl s]
          rfl
        case vacate w respawn =>
          refine (quiet_told hquiet).placid.vacate _ w respawn fun worker hw => Or.inl ?_
          obtain ⟨-, k, hk⟩ := Books.leaves_seat (w := w) h.seated (Books.mem_todo (codes_of_code hcode)) (by simp)
          have hseat := h.seated.seated k w hk
          simp only [gear, List.getElem?_map] at hseat
          have hw : s.workers[w]? = some worker := hw
          obtain rfl : worker.slot = k := by simpa [hw] using hseat
          exact hk
        all_goals exact told_exec hquiet _ t (by simp) (by simp) (by simp)
  | work t a =>
    simp only [Pool.act]
    split
    · cases a with
      | finish result => exact told_emit rfl s
      | _ => rfl
    · rfl
  | _ => rfl

/-! ## What holds after every run -/

/-- The workers that have a slot. -/
def posted (s : Pool n) : List WorkerId := s.slots.filterMap id

theorem mem_posted {s : Pool n} {w : WorkerId} : w ∈ s.posted ↔ ∃ k : Nat, s.slots[k]? = some (some w) := by
  unfold posted
  rw [List.mem_filterMap]
  constructor
  · rintro ⟨x, hx, rfl⟩
    exact List.getElem?_of_mem hx
  · rintro ⟨k, hk⟩
    exact ⟨some w, List.mem_of_getElem? hk, rfl⟩

theorem Manning.length_posted {s : Pool n} (h : s.Manning) : s.posted.length = s.workerCount :=
  List.length_filterMap_eq_countP.trans h.seated.count.symm

/-- The counts of the workers agree with the slots and with what the threads have to do. -/
structure Tallied (s : Pool n) (limit : Nat) : Prop where
  /-- As many workers are counted as slots are taken. -/
  counted : s.workerCount = s.slots.countP (·.isSome)
  bounded : s.workerCount ≤ limit
  /-- The worker in a slot was started for that slot. -/
  own : ∀ (k : Nat) (w : WorkerId), s.slots[k]? = some (some w) → (s.workers[w]?).map (·.slot) = some k
  /-- It is not retired, unless it is about to leave the slot, or an observer of the host broke that off. -/
  live : ∀ w ∈ s.posted, s.retired w = false ∨ 0 < s.pending (quits w) ∨ ∃ e, (s.executor e).host.sink = .host true
  /-- Whoever is not retired has a slot. -/
  stationed : ∀ w < s.workers.length, s.retired w = false → w ∈ s.posted
  /-- As many workers are idle as threads wait for an executor, so none of them finds the count at zero. -/
  idle : s.idle = s.pending idles
  /-- A worker that leaves is counted. -/
  leaves : ∀ t w respawn rest, s.code t = .vacate w respawn :: rest → 0 < s.workerCount
  /-- A worker is retired once. -/
  retires : ∀ w, s.history.toList.countP (Event.retires w) = if s.retired w then 1 else 0
  /-- No worker that leaves finds another one in its slot. -/
  kept : ∀ slot, .reported (.slotReplaced slot) ∉ s.history.toList

/-- What an invariant of the workers comes to. -/
structure Bookkept (s : Pool n) : Prop extends s.Manning where
  idles : s.books.Idles s.gear
  occupied : Occupied s.books.live s.books.leaving s.gear
  retires : s.books.Retires s.gear
  kept : s.told Event.replaced? = []

theorem create_bookkept (config : SchedulerConfig) (context : Metrics.Context) (log : LogFilter)
    (hosts : Vector Host n) : (create config context log hosts).Bookkept := by
  refine ⟨create_manning config context log hosts, ?_, ?_, ?_, ?_⟩ <;> try rw [books_create]
  · constructor <;> simp [Books.start, Books.todo, gear, create]
  · intro k w hk
    simp [gear, create, List.getElem?_replicate] at hk
  · intro w
    simp [Books.start, gear, create]
  · simp [told, create]

theorem Bookkept.act {s : Pool n} (h : s.Bookkept) (ho : s.books.Orderly) (a : Action n) : (s.act a).Bookkept := by
  have hg := act_goes s a
  exact ⟨h.toManning.act ho a, h.idles.goes h.fitted hg, Books.occupied_goes h.occupied h.seated hg, h.retires.goes hg,
    (h.toManning.replaced a).trans h.kept⟩

theorem pending_eq (s : Pool n) (p : Instr n → Bool) : s.pending p = s.books.todo.countP p := by
  simp [pending, Books.todo, books, List.flatMap_def]

theorem retired_true {s : Pool n} {w : WorkerId} : s.retired w = true ↔ s.books.live[w]? = some false := by
  rw [retired_eq]
  rcases s.books.live[w]? with _ | up
  · simp
  · cases up <;> simp

theorem retired_false {s : Pool n} {w : WorkerId} (hw : w < s.workers.length) :
    s.retired w = false ↔ s.books.live[w]? = some true := by
  have hlt : w < s.books.live.length := by simpa [books] using hw
  rw [retired_eq, List.getElem?_eq_getElem hlt]
  cases s.books.live[w] <;> simp

theorem countP_retires (s : Pool n) (w : WorkerId) :
    s.gear.deeds.countP (Event.retires w) = s.history.toList.countP (Event.retires w) := by
  show (s.history.toList.filter Event.isDeed).countP _ = _
  rw [List.countP_filter]
  refine List.countP_congr fun v _ => ?_
  cases v <;> simp [Event.isDeed]

theorem Bookkept.tallied {s : Pool n} (h : s.Bookkept) {limit : Nat} (hslots : s.slots.length = limit) :
    s.Tallied limit where
  counted := h.seated.count
  bounded := by
    rw [← hslots]
    exact Nat.le_trans (Nat.le_of_eq h.seated.count) List.countP_le_length
  own k w hk := by
    have hseat := h.seated.seated k w hk
    rwa [gear, List.getElem?_map] at hseat
  live w hw := by
    obtain ⟨k, hk⟩ := mem_posted.1 hw
    rw [pending_eq]
    refine (h.occupied k w hk).imp_left fun hup => ?_
    have hlt : w < s.workers.length := by simpa [books] using (List.getElem?_eq_some_iff.1 hup).1
    exact (retired_false hlt).2 hup
  stationed w hlt hw := mem_posted.2 (h.seated.holds w (Or.inl ((retired_false hlt).1 hw)))
  idle := h.idles.count.trans (pending_eq s Instr.idles).symm
  leaves t w respawn rest hcode := by
    obtain ⟨-, k, hk⟩ := Books.leaves_seat (w := w) h.seated (Books.mem_todo (codes_of_code hcode)) (by simp)
    exact h.seated.count_pos hk
  retires w := by
    rw [← countP_retires, h.retires w]
    by_cases hw : s.books.live[w]? = some false
    · rw [if_pos hw, if_pos (retired_true.2 hw)]
    · rw [if_neg hw, if_neg fun hr => hw (retired_true.1 hr)]
  kept slot hslot := by
    have hmem : slot ∈ s.told Event.replaced? := List.mem_filterMap.2 ⟨_, hslot, rfl⟩
    rw [h.kept] at hmem
    cases hmem

end Pool

end FairShare.Scheduler
