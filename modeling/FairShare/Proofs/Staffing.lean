import FairShare.Proofs.Outcome

/-!
# Workers and their slots

A worker has its slot until it vacates it, which it does once it is retired, and as many workers are counted as slots
are taken. While the scheduler runs, every worker that leaves is replaced; once it stops, none is counted any more at
the end.
-/

namespace FairShare.Scheduler

variable {n : Nat}

namespace Instr

/-- Whether an instruction has a worker leave its slot. -/
@[simp] def quits (w : WorkerId) : Instr n → Bool
  | .decideRespawn w' | .vacate w' _ => w' = w
  | _ => false

/-- Whether an instruction has a worker leave its slot to nobody. -/
@[simp] def drops (w : WorkerId) : Instr n → Bool
  | .vacate w' respawn => w' = w && !respawn
  | _ => false

/-- Whether an instruction goes on with stopping the scheduler. -/
@[simp] def stops : Instr n → Bool
  | .collect _ | .wakeWorkers | .beginStopWait _ | .stopWait _ _ | .close | .wakeWatchdog => true
  | _ => false

/-- Whether an instruction closes the scheduler. -/
@[simp] def shuts : Instr n → Bool
  | .close => true
  | _ => false

/-- Whether an instruction ends the stopping of a scheduler that is closed. -/
@[simp] def wakes : Instr n → Bool
  | .wakeWatchdog => true
  | _ => false

end Instr

open Instr

/-! ## Slots -/

/-- The slots agree with the workers, of whom some have still to leave. -/
structure Seated (live : List Bool) (leaving : WorkerId → Nat) (g : Gear n) : Prop where
  /-- Every worker was started for a slot. -/
  seats : g.seats.length = live.length
  /-- A worker is in no slot but its own. -/
  seated : ∀ (k : Nat) (w : WorkerId), g.slots[k]? = some (some w) → g.seats[w]? = some k
  /-- A worker keeps its slot until it leaves. -/
  holds : ∀ w : WorkerId, live[w]? = some true ∨ 0 < leaving w → ∃ k : Nat, g.slots[k]? = some (some w)
  /-- A worker leaves once, after it was retired. -/
  once : ∀ w : WorkerId, leaving w ≤ if live[w]? = some false then 1 else 0
  /-- As many workers are counted as slots are taken. -/
  count : g.workerCount = g.slots.countP (·.isSome)

namespace Seated

variable {live : List Bool} {leaving leaving' : WorkerId → Nat} {g g' : Gear n}

/-- The workers stay where they are. -/
theorem keep (h : Seated live leaving g) (hseats : g'.seats = g.seats) (hslots : g'.slots = g.slots)
    (hcount : g'.workerCount = g.workerCount) (hle : ∀ w, leaving' w ≤ leaving w) : Seated live leaving' g' where
  seats := by rw [hseats]; exact h.seats
  seated := by rw [hslots, hseats]; exact h.seated
  holds w hw := by rw [hslots]; exact h.holds w (hw.imp_right fun hq => Nat.lt_of_lt_of_le hq (hle w))
  once w := Nat.le_trans (hle w) (h.once w)
  count := by rw [hcount, hslots]; exact h.count

theorem countP_set {l : List (Option WorkerId)} {k : Nat} {x : Option WorkerId} (hk : l[k]? = some x)
    (y : Option WorkerId) :
    (l.set k y).countP (·.isSome) + (if x.isSome then 1 else 0) = l.countP (·.isSome) + if y.isSome then 1 else 0 := by
  induction l generalizing k with
  | nil => simp at hk
  | cons z l ih =>
    cases k with
    | zero =>
      obtain rfl : z = x := by simpa using hk
      simp only [List.set_cons_zero, List.countP_cons]
      omega
    | succ k =>
      have hl := ih (k := k) (by simpa using hk)
      simp only [List.set_cons_succ, List.countP_cons]
      omega

/-- Some worker is counted if a slot is taken. -/
theorem count_pos (h : Seated live leaving g) {k : Nat} {w : WorkerId} (hk : g.slots[k]? = some (some w)) :
    0 < g.workerCount := by
  rw [h.count]
  exact List.countP_pos_iff.2 ⟨_, List.mem_of_getElem? hk, rfl⟩

/-- A worker is started for an empty slot. -/
theorem hire (h : Seated live leaving g) {slot : Nat} (hs : g.slots[slot]? = some none) :
    Seated (live ++ [true]) leaving (g.hire slot) := by
  have hlt : slot < g.slots.length := (List.getElem?_eq_some_iff.1 hs).1
  have hnew : (g.slots.set slot (some g.seats.length))[slot]? = some (some g.seats.length) :=
    List.getElem?_set_self hlt
  have hold : ∀ (k : Nat) (w : WorkerId), g.slots[k]? = some (some w) →
      (g.slots.set slot (some g.seats.length))[k]? = some (some w) := by
    intro k w hk
    have hne : slot ≠ k := by
      rintro rfl
      rw [hs] at hk
      cases hk
    rw [List.getElem?_set_ne hne]
    exact hk
  constructor
  case seats =>
    show (g.seats ++ [slot]).length = _
    simp [h.seats]
  case seated =>
    intro k w hk
    show (g.seats ++ [slot])[w]? = some k
    have hk : (g.slots.set slot (some g.seats.length))[k]? = some (some w) := hk
    by_cases hks : slot = k
    · subst hks
      rw [hnew] at hk
      obtain rfl : g.seats.length = w := by simpa using hk
      simp
    · rw [List.getElem?_set_ne hks] at hk
      have hw := h.seated k w hk
      rw [List.getElem?_append_left (List.getElem?_eq_some_iff.1 hw).1]
      exact hw
  case holds =>
    intro w hw
    show ∃ k : Nat, (g.slots.set slot (some g.seats.length))[k]? = some (some w)
    rcases Nat.lt_trichotomy w live.length with hlw | rfl | hlw
    · obtain ⟨k, hk⟩ := h.holds w (hw.imp_left fun hl => by rwa [List.getElem?_append_left hlw] at hl)
      exact ⟨k, hold k w hk⟩
    · refine ⟨slot, ?_⟩
      rw [← h.seats]
      exact hnew
    · rcases hw with hl | hq
      · rw [List.getElem?_eq_none (by simp; omega)] at hl
        cases hl
      · obtain ⟨k, hk⟩ := h.holds w (Or.inr hq)
        exact ⟨k, hold k w hk⟩
  case once =>
    intro w
    have ho := h.once w
    by_cases hlw : w < live.length
    · rw [List.getElem?_append_left hlw]
      exact ho
    · have hnone : live[w]? = none := List.getElem?_eq_none (Nat.le_of_not_lt hlw)
      rw [hnone, if_neg (by simp)] at ho
      omega
  case count =>
    show g.workerCount + 1 = (g.slots.set slot (some g.seats.length)).countP (·.isSome)
    have hc := countP_set hs (some g.seats.length)
    have := h.count
    simp at hc
    omega

/-- A worker that is retired has still to leave. -/
theorem retire (h : Seated live leaving g) {w : WorkerId} (hw : live[w]? = some true)
    (hle : ∀ w', leaving' w' ≤ leaving w' + if w = w' then 1 else 0) (hseats : g'.seats = g.seats)
    (hslots : g'.slots = g.slots) (hcount : g'.workerCount = g.workerCount) :
    Seated (live.set w false) leaving' g' := by
  have hlt : w < live.length := (List.getElem?_eq_some_iff.1 hw).1
  constructor
  case seats => rw [hseats, List.length_set]; exact h.seats
  case seated => rw [hslots, hseats]; exact h.seated
  case holds =>
    intro w' hw'
    rw [hslots]
    by_cases hne : w = w'
    · subst hne
      exact h.holds w (Or.inl hw)
    · rw [List.getElem?_set_ne hne] at hw'
      refine h.holds w' (hw'.imp_right fun hq => ?_)
      have := hle w'
      rw [if_neg hne] at this
      omega
  case once =>
    intro w'
    have hq := hle w'
    have ho := h.once w'
    by_cases hne : w = w'
    · subst hne
      rw [List.getElem?_set_self hlt]
      rw [hw, if_neg (by simp)] at ho
      simp at hq ⊢
      omega
    · rw [List.getElem?_set_ne hne]
      rw [if_neg hne] at hq
      omega
  case count => rw [hcount, hslots]; exact h.count

/-- A worker leaves its slot. -/
theorem leave (h : Seated live leaving g) {w : WorkerId} {slot : Nat} (hs : g.slots[slot]? = some (some w))
    (hw : live[w]? = some false) (hq : leaving' w = 0) (hle : ∀ w', leaving' w' ≤ leaving w') :
    Seated live leaving' (g.leave slot) := by
  have hkeep : ∀ (k : Nat) (w' : WorkerId), w' ≠ w → g.slots[k]? = some (some w') →
      (g.slots.set slot none)[k]? = some (some w') := by
    intro k w' hne hk
    have hks : slot ≠ k := by
      rintro rfl
      rw [hs] at hk
      exact hne (by simpa [eq_comm] using hk)
    rw [List.getElem?_set_ne hks]
    exact hk
  constructor
  case seats => exact h.seats
  case seated =>
    intro k w' hk
    have hk : (g.slots.set slot none)[k]? = some (some w') := hk
    refine h.seated k w' ?_
    by_cases hks : slot = k
    · subst hks
      rw [List.getElem?_set_self (List.getElem?_eq_some_iff.1 hs).1] at hk
      cases hk
    · rwa [List.getElem?_set_ne hks] at hk
  case holds =>
    intro w' hw'
    have hne : w' ≠ w := by
      rintro rfl
      rcases hw' with hl | hp
      · rw [hw] at hl
        cases hl
      · omega
    obtain ⟨k, hk⟩ := h.holds w' (hw'.imp_right fun hp => Nat.lt_of_lt_of_le hp (hle w'))
    exact ⟨k, hkeep k w' hne hk⟩
  case once => exact fun w' => Nat.le_trans (hle w') (h.once w')
  case count =>
    show g.workerCount - 1 = (g.slots.set slot none).countP (·.isSome)
    have hc := countP_set hs none
    have := h.count
    simp at hc
    omega

end Seated

namespace Books

variable {b b' : Books n} {g g' : Gear n}

/-- How many instructions have a worker leave. -/
def leaving (b : Books n) (w : WorkerId) : Nat := b.todo.countP (quits w)

theorem quits_begins (w : WorkerId) (code : List (Instr n)) (h : Begins code) : code.countP (quits w) = 0 := by
  rcases h with ⟨w', rfl⟩ | rfl <;> simp

end Books

/-- Whether an instruction changes who has a slot, or who is going to leave it. -/
def Instr.isStaffing : Instr n → Bool
  | .enqueue _ | .retire _ | .decideRespawn _ | .vacate _ _ => true
  | _ => false

namespace Instr

variable {b b' : Books n} {g g' : Gear n} {i : Instr n} {next : List (Instr n)}

theorem Outcome.staff (ho : Outcome b g i b' g' next) (hi : i.isStaffing = false) :
    b'.live = b.live ∧ g'.seats = g.seats ∧ g'.slots = g.slots ∧ g'.workerCount = g.workerCount ∧
      ∀ w, next.countP (quits w) = 0 := by
  cases ho
  case reset e slice elapsed accounts ha hnever =>
    refine ⟨rfl, rfl, rfl, rfl, fun w => ?_⟩
    rw [List.countP_eq_zero]
    intro x hx
    rcases List.mem_append.1 hx with hx | hx
    · rcases ha x hx with ⟨o, rfl⟩ | ⟨before, after, rfl⟩ <;> simp
    · rw [List.mem_singleton.1 hx]; simp
  case take w e idle hi' h =>
    cases h
    exact ⟨rfl, rfl, rfl, rfl, by simp⟩
  case close w idle hp hi' h =>
    cases h
    exact ⟨rfl, rfl, rfl, rfl, by simp⟩
  case await w idle hp hi' h =>
    cases h
    exact ⟨rfl, rfl, rfl, rfl, by simp⟩
  case withdraw e =>
    refine ⟨?_, rfl, rfl, rfl, by simp⟩
    split <;> rfl
  case settle e runtime faults h hf hr hn =>
    refine ⟨rfl, rfl, rfl, rfl, fun w => ?_⟩
    rw [hn]
    split <;> simp
  case decide => cases hi
  all_goals first | exact ⟨rfl, rfl, rfl, rfl, by simp⟩ | cases hi

end Instr

namespace Books

variable {b b' : Books n} {g g' : Gear n}

/-- How many workers have still to leave after a step. -/
theorem leaving_step {t : ThreadId} {i : Instr n} {rest next : List (Instr n)} (ht : b.codes[t]? = some (i :: rest))
    (he : i.Effect { b with codes := b.codes.set t rest } b' next) (w : WorkerId) :
    ({ b' with codes := b'.codes.set t (next ++ rest) } : Books n).leaving w + [i].countP (quits w) =
      b.leaving w + next.countP (quits w) :=
  countP_step (quits_begins w) ht he

/-- A worker that has still to leave is retired and has its slot. -/
theorem leaves_seat (h : Seated b.live b.leaving g) {w : WorkerId} {i : Instr n} (hi : i ∈ b.todo)
    (hq : quits w i = true) : b.live[w]? = some false ∧ ∃ k : Nat, g.slots[k]? = some (some w) := by
  have hpos : 0 < b.leaving w := List.countP_pos_iff.2 ⟨i, hi, hq⟩
  refine ⟨?_, h.holds w (Or.inr hpos)⟩
  have ho := h.once w
  split at ho
  · assumption
  · omega

/-- A worker that vacates its slot leaves the others where they are. -/
theorem leave_vacated (h : Seated b.live b.leaving g) {w : WorkerId} {respawn : Bool} {slot : Nat}
    {leaving' : WorkerId → Nat} (hi : .vacate w respawn ∈ b.todo)
    (hq : ∀ w', leaving' w' + (if w = w' then 1 else 0) = b.leaving w')
    (hs : g.slots[slot]? = some (some w)) : Seated b.live leaving' (g.leave slot) := by
  have hlive := (leaves_seat (w := w) h hi (by simp)).1
  have hone := h.once w
  rw [if_pos hlive] at hone
  refine h.leave hs hlive ?_ fun w' => ?_
  · have := hq w
    rw [if_pos rfl] at this
    omega
  · have := hq w'
    omega

/-- The slots agree with the workers after every action. -/
theorem seated_goes (h : Seated b.live b.leaving g) {a : Action n} (hg : Goes b g a b' g') :
    Seated b'.live b'.leaving g' := by
  cases hg with
  | rest => exact h
  | advance => exact h.keep rfl rfl rfl fun _ => Nat.le_refl _
  | arrive c => exact h.keep rfl rfl rfl fun w => by simp [leaving, todo]
  | perform t w e rest next a ht ha =>
    refine h.keep rfl rfl rfl fun w' => ?_
    have hset := countP_flatten_set (quits w') ht (next ++ rest)
    have hz : next.countP (quits w') = 0 := by
      cases a with
      | call c => cases ha; simp
      | sleep nanos => obtain ⟨deadline, rfl⟩ := ha; simp
      | observe o => cases ha; simp
      | allocate bytes => cases ha; simp
      | finish result => cases ha; simp
    rw [← List.singleton_append, List.countP_append, List.countP_append] at hset
    show (b.codes.set t (next ++ rest)).flatten.countP _ ≤ b.codes.flatten.countP _
    omega
  | tear t e o rest ht hf =>
    refine h.keep rfl rfl rfl fun w' => ?_
    have hset := countP_flatten_set (quits w') ht []
    show (b.codes.set t []).flatten.countP _ ≤ b.codes.flatten.countP _
    simp only [List.countP_nil] at hset
    omega
  | step t i rest next b' g' ht hw he hl hd =>
    have hq := leaving_step ht he
    have ho := outcome hw he hl hd
    show Seated b'.live ({ b' with codes := b'.codes.set t (next ++ rest) } : Books n).leaving g'
    generalize ({ b' with codes := b'.codes.set t (next ++ rest) } : Books n).leaving = leaving' at hq ⊢
    have hkeep : i.isStaffing = false → Seated b'.live leaving' g' := by
      intro hi
      obtain ⟨hlive, hseats, hslots, hcount, hz⟩ := ho.staff hi
      rw [hlive]
      refine h.keep hseats hslots hcount fun w => ?_
      have := hq w
      have := hz w
      omega
    cases ho
    case push => exact h.keep rfl rfl rfl fun w => by simpa using Nat.le_of_eq (hq w)
    case hire hslot => exact (h.keep rfl rfl rfl fun w => by simpa using Nat.le_of_eq (hq w)).hire hslot
    case refuse => exact h.keep rfl rfl rfl fun w => by simpa using Nat.le_of_eq (hq w)
    case pass => exact h.keep rfl rfl rfl fun w => by simpa using Nat.le_of_eq (hq w)
    case decide => exact h.keep rfl rfl rfl fun w => by simpa using Nat.le_of_eq (hq w)
    case retired => exact h.keep rfl rfl rfl fun w => by simpa using Nat.le_of_eq (hq w)
    case retire w hlive =>
      refine h.retire hlive (fun w' => ?_) rfl rfl rfl
      have := hq w'
      simp at this
      omega
    case unseated w respawn current codes hh hseat =>
      obtain ⟨-, k, hk⟩ := leaves_seat (w := w) h (mem_todo ht) (by simp)
      rw [h.seated k w hk] at hseat
      cases hseat
    case displaced w respawn slot current codes hh hseat hslot =>
      obtain ⟨-, k, hk⟩ := leaves_seat (w := w) h (mem_todo ht) (by simp)
      rw [h.seated k w hk] at hseat
      cases hseat
      exact absurd hk hslot
    case leave w slot current codes hh hseat hslot =>
      exact leave_vacated h (mem_todo ht) (fun w' => by simpa [List.countP_cons] using hq w') hslot
    case replace w slot current codes hh hseat hslot =>
      have hlt := (List.getElem?_eq_some_iff.1 hslot).1
      exact (leave_vacated h (mem_todo ht) (fun w' => by simpa [List.countP_cons] using hq w') hslot).hire (List.getElem?_set_self hlt)
    case take w e idle hi h' => rcases hi with ⟨rfl, -⟩ | ⟨rfl, -⟩ <;> exact hkeep rfl
    case close w idle hp hi h' => rcases hi with ⟨rfl, -⟩ | ⟨rfl, -⟩ <;> exact hkeep rfl
    case await w idle hp hi h' => rcases hi with ⟨rfl, -⟩ | ⟨rfl, -⟩ <;> exact hkeep rfl
    all_goals exact hkeep rfl

/-! ## The end -/

/-- How many workers there are agrees with how far the scheduler is on its way to the end. -/
structure Manned (b : Books n) (g : Gear n) : Prop where
  /-- Only workers are idle. -/
  idle : 0 < g.idle → 0 < b.live.length
  /-- While the scheduler runs, whoever leaves is replaced. -/
  replaced : b.phase = .running → ∀ w, b.todo.countP (drops w) = 0
  /-- While the scheduler runs, the workers do not die out. -/
  manned : b.phase = .running → 0 < b.live.length → 0 < g.workerCount
  /-- Whoever waits for the workers to retire waits for one that has not. -/
  awaited : g.stopWaiters ≠ [] → 0 < g.workerCount
  /-- Whoever stops the scheduler has set its phase. -/
  stopping : 0 < b.todo.countP stops → b.phase ≠ .running
  /-- Whoever closes the scheduler has seen the last worker off. -/
  shutting : 0 < b.todo.countP shuts → g.workerCount = 0
  /-- No worker is left in a scheduler that is closed. -/
  closed : b.phase = .closed → g.workerCount = 0
  /-- The scheduler is closed before the watchdog is woken for the last time. -/
  woken : 0 < b.todo.countP wakes → b.phase = .closed

theorem Manned.start (hidle : g.idle = 0) (hwaiters : g.stopWaiters = []) : Manned .start g := by
  constructor <;> simp [Books.start, todo, hidle, hwaiters]

/-- Nobody comes or goes. -/
theorem Manned.keep (h : Manned b g) (hphase : b'.phase = b.phase) (hlive : b'.live.length = b.live.length)
    (hidle : 0 < g'.idle → 0 < g.idle) (hcount : g'.workerCount = g.workerCount)
    (hwaiters : g'.stopWaiters = g.stopWaiters)
    (hdrops : b.phase = .running → ∀ w, 0 < b'.todo.countP (drops w) → 0 < b.todo.countP (drops w))
    (hstops : 0 < b'.todo.countP stops → 0 < b.todo.countP stops)
    (hshuts : 0 < b'.todo.countP shuts → 0 < b.todo.countP shuts)
    (hwakes : 0 < b'.todo.countP wakes → 0 < b.todo.countP wakes) : Manned b' g' where
  idle hi := by rw [hlive]; exact h.idle (hidle hi)
  replaced hp w := by
    have hz := h.replaced (hphase ▸ hp) w
    have := hdrops (hphase ▸ hp) w
    omega
  manned hp hl := by rw [hcount]; exact h.manned (hphase ▸ hp) (hlive ▸ hl)
  awaited hs := by rw [hcount]; exact h.awaited (hwaiters ▸ hs)
  stopping hs := by rw [hphase]; exact h.stopping (hstops hs)
  shutting hs := by rw [hcount]; exact h.shutting (hshuts hs)
  closed hp := by rw [hcount]; exact h.closed (hphase ▸ hp)
  woken hw := by rw [hphase]; exact h.woken (hwakes hw)

theorem drops_begins (w : WorkerId) (code : List (Instr n)) (h : Begins code) : code.countP (drops w) = 0 := by
  rcases h with ⟨w', rfl⟩ | rfl <;> simp

theorem stops_begins (code : List (Instr n)) (h : Begins code) : code.countP stops = 0 := by
  rcases h with ⟨w', rfl⟩ | rfl <;> simp

theorem shuts_begins (code : List (Instr n)) (h : Begins code) : code.countP shuts = 0 := by
  rcases h with ⟨w', rfl⟩ | rfl <;> simp

theorem wakes_begins (code : List (Instr n)) (h : Begins code) : code.countP wakes = 0 := by
  rcases h with ⟨w', rfl⟩ | rfl <;> simp

/-- A step after which as many workers are counted, in the same phase. -/
theorem Manned.keep_step (h : Manned b g) {t : ThreadId} {i : Instr n} {rest next : List (Instr n)}
    (ht : b.codes[t]? = some (i :: rest)) (he : i.Effect { b with codes := b.codes.set t rest } b' next)
    (hphase : b'.phase = b.phase) (hlive : b'.live.length = b.live.length) (hidle : 0 < g'.idle → 0 < g.idle)
    (hcount : g'.workerCount = g.workerCount) (hwaiters : g'.stopWaiters = g.stopWaiters)
    (hdrops : b.phase = .running → ∀ w, next.countP (drops w) = 0) (hstops : 0 < next.countP stops → 0 < [i].countP stops)
    (hshuts : next.countP shuts = 0) (hwakes : next.countP wakes = 0) :
    Manned { b' with codes := b'.codes.set t (next ++ rest) } g' := by
  refine h.keep hphase hlive hidle hcount hwaiters (fun hp w => pos_step (drops_begins w) ht he fun hd => ?_)
    (pos_step stops_begins ht he hstops) (pos_step shuts_begins ht he fun hs => ?_)
    (pos_step wakes_begins ht he fun hw => ?_)
  · rw [hdrops hp w] at hd
    exact absurd hd (Nat.lt_irrefl 0)
  · omega
  · omega

/-- What ends a slice has nothing to do with the end of the scheduler. -/
theorem countP_accounts {accounts : List (Instr n)} {e : Fin n} {p : Instr n → Bool}
    (h : ∀ x ∈ accounts, (∃ o, x = .account e o) ∨ ∃ before after, x = .warnAllocation e before after)
    (ha : ∀ o, p (.account e o) = false) (hw : ∀ before after, p (.warnAllocation e before after) = false)
    (hs : p (.settle e) = false) : (accounts ++ [Instr.settle e]).countP p = 0 := by
  rw [List.countP_eq_zero]
  intro x hx
  rcases List.mem_append.1 hx with hx | hx
  · rcases h x hx with ⟨o, rfl⟩ | ⟨before, after, rfl⟩
    · simp [ha]
    · simp [hw]
  · rw [List.mem_singleton.1 hx]
    simp [hs]

theorem manned_goes (h : Manned b g) (hs : Seated b.live b.leaving g) (ho : b.Orderly) {a : Action n}
    (hg : Goes b g a b' g') : Manned b' g' := by
  cases hg with
  | rest => exact h
  | advance => exact h.keep rfl rfl id rfl rfl (fun _ _ => id) id id id
  | arrive c =>
    refine h.keep rfl rfl id rfl rfl (fun _ w => ?_) ?_ ?_ ?_ <;> rw [countP_arrive] <;> exact id
  | perform t w e rest next a ht ha =>
    have hc : ∀ p : Instr n → Bool, next.countP p = 0 →
        0 < ({ b with codes := b.codes.set t (next ++ rest) } : Books n).todo.countP p → 0 < b.todo.countP p := by
      intro p hp hpos
      have hset := countP_replace p ht next
      omega
    have hz : (∀ w, next.countP (drops w) = 0) ∧ next.countP stops = 0 ∧ next.countP shuts = 0 ∧
        next.countP wakes = 0 := by
      cases a with
      | call c => cases ha; simp
      | sleep nanos => obtain ⟨deadline, rfl⟩ := ha; simp
      | observe o => cases ha; simp
      | allocate bytes => cases ha; simp
      | finish result => cases ha; simp
    exact h.keep rfl rfl id rfl rfl (fun _ w => hc _ (hz.1 w)) (hc _ hz.2.1) (hc _ hz.2.2.1) (hc _ hz.2.2.2)
  | tear t e o rest ht hf =>
    exact h.keep rfl rfl id rfl rfl (fun _ w hp => Nat.lt_of_lt_of_le hp (countP_tear _ ht))
      (fun hp => Nat.lt_of_lt_of_le hp (countP_tear _ ht)) (fun hp => Nat.lt_of_lt_of_le hp (countP_tear _ ht))
      fun hp => Nat.lt_of_lt_of_le hp (countP_tear _ ht)
  | step t i rest next b' g' ht hw he hl hd =>
    have hout := outcome hw he hl hd
    have hmem := mem_todo ht
    cases hout
    case reset e slice elapsed accounts ha hnever =>
      have hz : ∀ p : Instr n → Bool, (∀ o, p (.account e o) = false) →
          (∀ before after, p (.warnAllocation e before after) = false) → p (.settle e) = false →
          (accounts ++ [Instr.settle e]).countP p = 0 := fun p => countP_accounts ha
      exact h.keep_step ht he rfl rfl id rfl rfl (fun _ w => hz _ (fun _ => rfl) (fun _ _ => rfl) rfl)
        (by rw [hz _ (fun _ => rfl) (fun _ _ => rfl) rfl]; simp) (hz _ (fun _ => rfl) (fun _ _ => rfl) rfl)
        (hz _ (fun _ => rfl) (fun _ _ => rfl) rfl)
    case take w e idle hi h' =>
      cases h'
      refine h.keep_step ht he rfl rfl (fun hpos => ?_) rfl rfl (by simp) (by simp) (by simp) (by simp)
      rcases hi with ⟨-, rfl⟩ | ⟨-, rfl⟩
      · exact hpos
      · exact Nat.lt_of_lt_of_le hpos (Nat.sub_le ..)
    case close w idle hp hi h' =>
      cases h'
      refine h.keep_step ht he rfl rfl (fun hpos => ?_) rfl rfl (by simp) (by simp) (by simp) (by simp)
      rcases hi with ⟨-, rfl⟩ | ⟨-, rfl⟩
      · exact hpos
      · exact Nat.lt_of_lt_of_le hpos (Nat.sub_le ..)
    case await w idle hp hi h' =>
      cases h'
      have hlt : w < b.current.length := by
        rcases hi with ⟨rfl, -⟩ | ⟨rfl, -⟩ <;> exact ho.started hmem (by simp)
      have hpos : 0 < b.live.length := ho.lengths ▸ Nat.zero_lt_of_lt hlt
      have hk := h.keep_step ht he rfl rfl (id : 0 < g.idle → 0 < g.idle) rfl rfl (by simp) (by simp) (by simp) (by simp)
      exact { hk with idle := fun _ => hpos }
    case withdraw e =>
      refine h.keep_step ht he ?_ ?_ id rfl rfl (by simp) (by simp) (by simp) (by simp) <;> split <;> rfl
    case settle e runtime faults hst hf hr hn =>
      have hz : ∀ p : Instr n → Bool, p (.finishUnload e) = false → next.countP p = 0 := by
        intro p hp
        rw [hn]
        split <;> simp [hp]
      exact h.keep_step ht he rfl rfl id rfl rfl (fun _ w => hz _ rfl) (by rw [hz _ rfl]; simp) (hz _ rfl) (hz _ rfl)
    case inspect ws hws =>
      have hz : ∀ p : Instr n → Bool, (∀ w, p (.checkWorker w) = false) → (ws.map Instr.checkWorker).countP p = 0 := by
        intro p hp
        rw [List.countP_map, List.countP_eq_zero]
        intro w _
        simp [hp]
      exact h.keep_step ht he rfl rfl id rfl rfl (fun _ w => hz _ fun _ => rfl) (by rw [hz _ fun _ => rfl]; simp)
        (hz _ fun _ => rfl) (hz _ fun _ => rfl)
    case collect timeout es =>
      have hz : ∀ p : Instr n → Bool, (∀ e, p (.call (.hardAbort e)) = false) → p .wakeWorkers = false →
          p (.beginStopWait timeout) = false →
          (es.map (Instr.call ∘ Call.hardAbort) ++ [Instr.wakeWorkers, .beginStopWait timeout]).countP p = 0 := by
        intro p h1 h2 h3
        rw [List.countP_append, List.countP_map]
        have h0 : es.countP (p ∘ Instr.call ∘ Call.hardAbort) = 0 := by
          rw [List.countP_eq_zero]
          intro e _
          simp [h1]
        simp [h0, h2, h3]
      exact h.keep_step ht he rfl rfl id rfl rfl (fun _ w => hz _ (fun _ => rfl) rfl rfl) (by simp)
        (hz _ (fun _ => rfl) rfl rfl) (hz _ (fun _ => rfl) rfl rfl)
    case stop timeout =>
      have hp : b.phase.later .stopping ≠ .running := by cases b.phase <;> decide
      have hc : b.phase.later .stopping = .closed ↔ b.phase = .closed := by cases b.phase <;> decide
      refine ⟨h.idle, fun hr => absurd hr hp, fun hr => absurd hr hp, h.awaited, fun _ => hp, fun hs => ?_,
        fun hr => h.closed (hc.1 hr), fun hw => hc.2 (h.woken (pos_step wakes_begins ht he (by simp) hw))⟩
      exact h.shutting (pos_step shuts_begins ht he (by simp) hs)
    case hire e slot current codes runtime arrival hp hst hh hr hslot =>
      have hshuts : 0 < b.todo.countP shuts → b.phase ≠ .running := fun hpos =>
        h.stopping (Nat.lt_of_lt_of_le hpos (List.countP_mono_left fun i _ hi => by cases i <;> simp_all))
      refine ⟨fun _ => by simp, fun _ w => none_step (drops_begins w) ht he (by simp) (h.replaced hp w),
        fun _ _ => Nat.succ_pos _, fun _ => Nat.succ_pos _,
        fun hpos => h.stopping (pos_step stops_begins ht he (by simp) hpos),
        fun hpos => absurd hp (hshuts (pos_step shuts_begins ht he (by simp) hpos)),
        fun hc => absurd (hp.symm.trans hc) (by decide),
        fun hpos => h.woken (pos_step wakes_begins ht he (by simp) hpos)⟩
    case decide w respawn hrespawn =>
      refine h.keep_step ht he rfl rfl id rfl rfl (fun hp w' => ?_) (by simp) (by simp) (by simp)
      rw [hrespawn.2 (Or.inl hp)]
      simp
    case leave w slot current codes hh hseat hslot =>
      have hpos := hs.count_pos hslot
      have hp : b.phase ≠ .running := by
        intro hp
        have hd := countP_head_le (drops w) ht
        rw [h.replaced hp w] at hd
        simp at hd
      refine ⟨h.idle, fun hr => absurd hr hp, fun hr => absurd hr hp, fun hw => absurd rfl hw, fun _ => hp,
        fun hsh => ?_, fun hc => ?_, fun hw => h.woken (pos_step wakes_begins ht he (by simp) hw)⟩
      · have := h.shutting (pos_step shuts_begins ht he (by simp) hsh)
        omega
      · have := h.closed hc
        omega
    case replace w slot current codes hh hseat hslot =>
      have hpos := hs.count_pos hslot
      refine ⟨fun _ => by simp, fun hp w' => none_step (drops_begins w') ht he (by simp) (h.replaced hp w'),
        fun _ _ => Nat.succ_pos _, fun hw => absurd rfl hw,
        fun hst => h.stopping (pos_step stops_begins ht he (by simp) hst), fun hsh => ?_, fun hc => ?_,
        fun hw => h.woken (pos_step wakes_begins ht he (by simp) hw)⟩
      · have := h.shutting (pos_step shuts_begins ht he (by simp) hsh)
        omega
      · have := h.closed hc
        omega
    case unseated w respawn current codes hh hseat =>
      obtain ⟨-, k, hk⟩ := leaves_seat (w := w) hs hmem (by simp)
      rw [hs.seated k w hk] at hseat
      cases hseat
    case displaced w respawn slot current codes hh hseat hslot =>
      obtain ⟨-, k, hk⟩ := leaves_seat (w := w) hs hmem (by simp)
      rw [hs.seated k w hk] at hseat
      cases hseat
      exact absurd hk hslot
    case stopped deadline timeout hz =>
      exact ⟨h.idle, fun hp w => none_step (drops_begins w) ht he (by simp) (h.replaced hp w), h.manned, h.awaited,
        fun hst => h.stopping (pos_step stops_begins ht he (by simp) hst), fun _ => hz, h.closed,
        fun hw => h.woken (pos_step wakes_begins ht he (by simp) hw)⟩
    case stopWait deadline timeout waiters hpos =>
      have hk : Manned { b with codes := (b.codes.set t rest).set t ([.stopWait deadline timeout] ++ rest) } g :=
        h.keep_step ht he rfl rfl id rfl rfl (by simp) (by simp) (by simp) (by simp)
      exact { hk with awaited := fun _ => hpos }
    case shut =>
      have hz : g.workerCount = 0 := h.shutting (Nat.lt_of_lt_of_le (by simp) (countP_head_le shuts ht))
      have hc : b.phase.later .closed = .closed := by cases b.phase <;> decide
      have hp : b.phase.later .closed ≠ .running := by rw [hc]; decide
      exact ⟨h.idle, fun hr => absurd hr hp, fun hr => absurd hr hp, h.awaited, fun _ => hp, fun _ => hz, fun _ => hz,
        fun _ => hc⟩
    all_goals
      exact h.keep_step ht he rfl (by simp) id rfl rfl (by simp) (by simp) (by simp) (by simp)

end Books

end FairShare.Scheduler
