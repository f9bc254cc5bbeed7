import FairShare.Proofs.Custody
import FairShare.Proofs.Tally

/-!
# Conservation of work

A worker is started for an executor that enters the run queue if no worker is idle. As long as no submit meets an idle
worker that an earlier executor needs, there are as many workers as active executors until every slot is taken, so
nobody is left waiting behind those who run while a slot is empty.
-/

namespace FairShare.Scheduler

variable {n : Nat}

open Instr

namespace Seated

variable {live : List Bool} {leaving : WorkerId → Nat} {g : Gear n}

/-- Every slot is taken when none is empty. -/
theorem full (h : Seated live leaving g) (hnone : none ∉ g.slots) : g.workerCount = g.slots.length := by
  rw [h.count, List.countP_eq_length]
  intro x hx
  cases x with
  | none => exact absurd hx hnone
  | some w => rfl

/-- No slot is empty when every slot is taken. -/
theorem taken_of_full (h : Seated live leaving g) (hfull : g.workerCount = g.slots.length) : none ∉ g.slots := by
  rw [h.count, List.countP_eq_length] at hfull
  exact fun hnone => by simpa using hfull none hnone

end Seated

namespace Books

variable {b b' : Books n} {g g' : Gear n}

/-- While the scheduler runs, as many workers are counted as executors are active, or every slot is taken. -/
def Crewed (b : Books n) (g : Gear n) : Prop :=
  b.phase = .running → b.queue.length + b.running.length ≤ g.workerCount ∨ g.workerCount = g.slots.length

/-- A submit that meets an idle worker finds more workers than active executors, or every slot taken. -/
def Spares (b : Books n) (g : Gear n) (a : Action n) : Prop :=
  ∀ (t : ThreadId) (e : Fin n) (rest : List (Instr n)), a = .step t → b.codes[t]? = some (.enqueue e :: rest) →
    g.idle = 0 ∨ b.queue.length + b.running.length < g.workerCount ∨ g.workerCount = g.slots.length

theorem Crewed.keep (h : b.Crewed g) (hp : b'.phase = .running → b.phase = .running)
    (hle : b'.queue.length + b'.running.length ≤ b.queue.length + b.running.length)
    (hcount : g'.workerCount = g.workerCount) (hslots : g'.slots.length = g.slots.length) : b'.Crewed g' := by
  intro hr
  rw [hcount, hslots]
  exact (h (hp hr)).imp_left (Nat.le_trans hle)

theorem length_insert (x : Entry n) (l : List (Entry n)) : (Entry.insert x l).length = l.length + 1 := by
  induction l with
  | nil => rfl
  | cons y l ih =>
    unfold Entry.insert
    split
    · rfl
    · simp [ih]

/-- A worker finds an executor that waits, or nobody waits. -/
theorem Takes.active {o : Option (Fin n)} (h : b.Takes b' o) :
    b'.queue.length + b'.running.length ≤ b.queue.length + b.running.length := by
  cases h with
  | found skipped head rest faults hq hs hf hh =>
    have hlen := congrArg List.length hq
    simp only [List.length_append, List.length_cons] at hlen
    simp only [setStage, mark, List.length_append, List.length_singleton]
    omega
  | nothing faults hs hf => simp

/-- Who leaves a worker was among the running. -/
theorem length_filter_lt {e : Fin n} (he : e ∈ b.running) : (b.running.filter (· != e)).length < b.running.length :=
  List.length_filter_lt_length_iff_exists.2 ⟨e, he, by simp⟩

variable {t : ThreadId} {i : Instr n} {rest next : List (Instr n)}

theorem Crewed.step (h : b.Crewed g) (hs : Seated b.live b.leaving g) (hm : b.Manned g)
    (hp : ∀ e, (b.account e).Placed) (ht : b.codes[t]? = some (i :: rest))
    (hout : Outcome { b with codes := b.codes.set t rest } g i b' g' next) (hspare : b.Spares g (.step t)) :
    ({ b' with codes := b'.codes.set t (next ++ rest) } : Books n).Crewed g' := by
  have hkeep : b'.phase = b.phase → b'.queue.length + b'.running.length ≤ b.queue.length + b.running.length →
      g'.workerCount = g.workerCount → g'.slots = g.slots →
      ({ b' with codes := b'.codes.set t (next ++ rest) } : Books n).Crewed g' := fun hphase hle hcount hslots =>
    h.keep (fun hr => hphase ▸ hr) hle hcount (by rw [hslots])
  cases hout
  case push e current codes runtime arrival hph hst hh hr hmany =>
    intro _
    show (Entry.insert _ b.queue).length + b.running.length ≤ _ ∨ _
    rw [length_insert]
    have hidle : 0 < g.idle ∨ g.workerCount = g.slots.length := by
      rcases hmany with h | h | h
      · exact Or.inl h
      · exact Or.inr h
      · exact Or.inr (hs.full h)
    rcases hspare t e rest rfl ht with hz | hlt | hfull
    · exact Or.inr (hidle.resolve_left (by omega))
    · exact Or.inl (by omega)
    · exact Or.inr hfull
  case hire e slot current codes runtime arrival hph hst hh hr hslot =>
    intro _
    show (Entry.insert _ b.queue).length + b.running.length ≤ g.workerCount + 1 ∨ _
    rw [length_insert]
    rcases h hph with hle | hfull
    · exact Or.inl (by omega)
    · exact absurd (List.mem_of_getElem? hslot) (hs.taken_of_full hfull)
  case take w e idle hi htake => exact hkeep (by cases htake; rfl) htake.active rfl rfl
  case close w idle hph hi htake => exact hkeep (by cases htake; rfl) htake.active rfl rfl
  case await w idle hph hi htake => exact hkeep (by cases htake; rfl) htake.active rfl rfl
  case dequeue e =>
    exact hkeep rfl (Nat.add_le_add_right (List.length_filter_le ..) _) rfl rfl
  case settle e runtime faults hst hf hr hn =>
    exact hkeep rfl (Nat.add_le_add_left (List.length_filter_le ..) _) rfl rfl
  case requeue e runtime faults arrival hst hph hf hr =>
    refine hkeep rfl ?_ rfl rfl
    have hlt := length_filter_lt (mem_running_of_stays (hp e) (mem_todo ht) (by simp))
    show (Entry.insert _ b.queue).length + (b.running.filter (· != e)).length ≤ _
    rw [length_insert]
    omega
  case stop timeout =>
    intro hr
    have hr : b.phase.later .stopping = .running := hr
    cases hb : b.phase <;> rw [hb] at hr <;> cases hr
  case shut =>
    intro hr
    have hr : b.phase.later .closed = .running := hr
    cases hb : b.phase <;> rw [hb] at hr <;> cases hr
  case withdraw e =>
    refine hkeep ?_ ?_ rfl rfl <;> split
    · rfl
    · rfl
    · exact Nat.le_refl _
    · exact Nat.le_refl _
  case leave w slot current codes hh hseat hslot =>
    intro hr
    have hd := countP_head_le (drops w) ht
    rw [hm.replaced hr w] at hd
    simp at hd
  case replace w slot current codes hh hseat hslot =>
    have hpos := hs.count_pos hslot
    exact h.keep id (Nat.le_refl _) (Nat.sub_add_cancel hpos) (by simp [Gear.hire, Gear.leave])
  case unseated w respawn current codes hh hseat =>
    obtain ⟨-, k, hk⟩ := leaves_seat (w := w) hs (mem_todo ht) (by simp)
    rw [hs.seated k w hk] at hseat
    cases hseat
  case displaced w respawn slot current codes hh hseat hslot =>
    obtain ⟨-, k, hk⟩ := leaves_seat (w := w) hs (mem_todo ht) (by simp)
    rw [hs.seated k w hk] at hseat
    cases hseat
    exact absurd hk hslot
  all_goals exact hkeep rfl (Nat.le_refl _) rfl rfl

theorem Crewed.goes (h : b.Crewed g) (hs : Seated b.live b.leaving g) (hm : b.Manned g)
    (hp : ∀ e, (b.account e).Placed) {a : Action n} (hg : Goes b g a b' g') (hspare : b.Spares g a) : b'.Crewed g' := by
  cases hg with
  | step t i rest next b' g' ht hw he hl hd => exact h.step hs hm hp ht (outcome hw he hl hd) hspare
  | _ => exact h.keep id (Nat.le_refl _) rfl rfl

end Books

namespace Pool

variable {s : Pool n}

/-- Whether a submit that comes to the run queue meets no idle worker, or more workers than executors that are active, or
every slot taken. -/
def spares (s : Pool n) : Action n → Bool
  | .step t =>
    match s.code t with
    | .enqueue _ :: _ =>
      s.idle == 0 || decide (s.queue.length + s.running.length < s.workerCount) || s.workerCount == s.slots.length
    | _ => true
  | _ => true

/-- Whether a worker has an executor. -/
def engaged (s : Pool n) (w : WorkerId) : Bool := s.running.any fun e => lastTaker s.takings e == some w

/-- How many workers have a slot and no executor: they are idle, starting, between two slices, or about to be replaced. -/
def free (s : Pool n) : Nat := s.posted.countP fun w => !s.engaged w

end Pool

end FairShare.Scheduler
