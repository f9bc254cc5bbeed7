import FairShare.Proofs.Posts
import FairShare.Proofs.Resting

/-!
# The interrupt of a slice

A worker's interrupt is taken back when its thread opens a slice, and goes up when a watchdog interrupts the slice that the
worker runs. Between the two nobody touches it: a watchdog finds no slice on a worker that is opening one, and the thread
that takes the interrupt back is the one that opens the slice. So within a slice the interrupt is up exactly if the worker
was interrupted since it took the executor, and once up it stays up.
-/

namespace FairShare.Scheduler

variable {n : Nat}

/-! ## Interrupts in a history -/

/-- A worker was interrupted since it last took an executor. -/
def Interrupted (w : WorkerId) (deeds : List (Event n)) : Prop :=
  ∃ before after, deeds = before ++ .interrupted w :: after ∧ ∀ e, .taken e w ∉ after

theorem interrupted_concat {w : WorkerId} {deeds : List (Event n)} {v : Event n} :
    Interrupted w (deeds ++ [v]) ↔ v = .interrupted w ∨ Interrupted w deeds ∧ ∀ e, v ≠ .taken e w := by
  constructor
  · rintro ⟨before, after, heq, hnone⟩
    rcases List.eq_nil_or_concat after with rfl | ⟨after, v', rfl⟩
    · exact Or.inl (List.cons.inj (List.append_inj' heq rfl).2).1
    · rw [List.concat_eq_append, ← List.cons_append, ← List.append_assoc] at heq
      obtain ⟨hdeeds, hv⟩ := List.append_inj' heq rfl
      obtain rfl := (List.cons.inj hv).1
      refine Or.inr ⟨⟨before, after, hdeeds, fun e he => hnone e (by simp [he])⟩, ?_⟩
      rintro e rfl
      exact hnone e (by simp)
  · rintro (rfl | ⟨⟨before, after, rfl, hnone⟩, hv⟩)
    · exact ⟨deeds, [], rfl, by simp⟩
    · refine ⟨before, after ++ [v], by simp, fun e he => ?_⟩
      rcases List.mem_append.1 he with he | he
      · exact hnone e he
      · exact hv e (List.mem_singleton.1 he).symm

theorem not_interrupted_of_taken (w : WorkerId) (e : Fin n) (deeds : List (Event n)) :
    ¬Interrupted w (deeds ++ [.taken e w]) := by
  rw [interrupted_concat]
  rintro (h | ⟨-, h⟩)
  · cases h
  · exact h e rfl

/-- Whether an event can change whether a worker was interrupted since it took an executor. -/
def Event.concerns (w : WorkerId) : Event n → Bool
  | .interrupted w' | .taken _ w' => w' = w
  | _ => false

theorem interrupted_concat_of_not_concerns {w : WorkerId} {deeds : List (Event n)} {v : Event n}
    (hv : v.concerns w = false) : Interrupted w (deeds ++ [v]) ↔ Interrupted w deeds := by
  rw [interrupted_concat]
  constructor
  · rintro (rfl | ⟨h, -⟩)
    · simp [Event.concerns] at hv
    · exact h
  · intro h
    refine Or.inr ⟨h, ?_⟩
    rintro e rfl
    simp [Event.concerns] at hv

open Instr

namespace Instr

theorem readies_of_prepares {w : WorkerId} {e : Fin n} {x : Instr n} (h : x.prepares w e = true) :
    x.readies w e = true := by
  cases x <;> simp_all

theorem slices_of_readies {w : WorkerId} {e : Fin n} {x : Instr n} (h : x.readies w e = true) : x.slices w = true := by
  cases x <;> simp_all

variable {b b' : Books n} {g g' : Gear n} {i x : Instr n} {next : List (Instr n)} {w : WorkerId}

/-- What carrying out an instruction does to a worker's interrupt. -/
inductive Stirs (w : WorkerId) (b : Books n) (g g' : Gear n) (i : Instr n) : Prop where
  /-- Nothing. -/
  | keep (hclear : i ≠ .clearInterrupt w) (hup : ∀ up, g.interrupted[w]? = some up → g'.interrupted[w]? = some up)
      (hdeeds : Interrupted w g'.deeds ↔ Interrupted w g.deeds)
  /-- It is taken back. -/
  | clear (hi : i = .clearInterrupt w) (hup : g'.interrupted = g.interrupted.set w false) (hdeeds : g'.deeds = g.deeds)
  /-- It goes up for the slice that the worker runs. -/
  | press (e : Fin n) (hclear : i ≠ .clearInterrupt w) (hcur : b.current[w]? = some (some e))
      (hg : g' = (g.interrupt w).deed (.interrupted w))
  /-- The worker takes an executor. -/
  | take (hi : i = .seekWork w ∨ i = .awaitWork w) (hup : g'.interrupted = g.interrupted)
      (hdeeds : ¬Interrupted w g'.deeds)

theorem Stirs.of_deed {v : Event n} (hclear : i ≠ .clearInterrupt w) (hv : v.concerns w = false)
    (hup : g'.interrupted = g.interrupted) (hdeeds : g'.deeds = g.deeds ++ [v]) : Stirs w b g g' i := by
  refine .keep hclear (fun up h => hup ▸ h) ?_
  rw [hdeeds, interrupted_concat_of_not_concerns hv]

theorem Outcome.stirs (ho : Outcome b g i b' g' next) (w : WorkerId) : Stirs w b g g' i := by
  have hhired : ∀ up, g.interrupted[w]? = some up → (g.interrupted ++ [false])[w]? = some up := by
    intro up hup
    rw [List.getElem?_append_left (List.getElem?_eq_some_iff.1 hup).1]
    exact hup
  have hpress : ∀ {w' : WorkerId} {e : Fin n} {o : Duration}, b.current[w']? = some (some e) →
      Stirs w b g ((g.interrupt w').deed (.interrupted w')) (.press w' e o) := by
    intro w' e o hcur
    by_cases hne : w' = w
    · subst hne
      exact .press e (by simp) hcur rfl
    · refine .keep (by simp) (fun up hup => ?_) (interrupted_concat_of_not_concerns (by simp [Event.concerns, hne]))
      simpa [Gear.interrupt, Gear.deed, List.getElem?_modify, hne] using hup
  cases ho
  case hire => exact .keep (by simp) hhired Iff.rfl
  case replace => exact .keep (by simp) hhired Iff.rfl
  case clearInterrupt w' =>
    by_cases hne : w' = w
    · subst hne
      exact .clear rfl rfl rfl
    · refine .keep (by simp [hne]) (fun up hup => ?_) Iff.rfl
      show (g.interrupted.set w' false)[w]? = some up
      rw [List.getElem?_set_ne hne]
      exact hup
  case take w' e idle hi h' =>
    by_cases hne : w' = w
    · subst hne
      exact .take (hi.imp And.left And.left) rfl (not_interrupted_of_taken _ _ _)
    · refine .of_deed ?_ (by simp [Event.concerns, hne]) rfl rfl
      rcases hi with ⟨rfl, -⟩ | ⟨rfl, -⟩ <;> simp
  case close w' idle hp hi h' => exact .keep (by rcases hi with ⟨rfl, -⟩ | ⟨rfl, -⟩ <;> simp) (fun _ h => h) Iff.rfl
  case await w' idle hp hi h' => exact .keep (by rcases hi with ⟨rfl, -⟩ | ⟨rfl, -⟩ <;> simp) (fun _ h => h) Iff.rfl
  case press hcur => exact hpress hcur
  case giveUp hcur => exact hpress hcur
  case tell | callHost | callWork | reset | retire | writeReport => exact .of_deed (by simp) rfl rfl rfl
  all_goals exact .keep (by simp) (fun _ h => h) Iff.rfl

theorem Stirs.of_clear {w' : WorkerId} (hs : Stirs w' b g g' (.clearInterrupt w')) :
    g'.interrupted = g.interrupted.set w' false := by
  cases hs with
  | keep hclear => exact absurd rfl hclear
  | clear hi hup => exact hup
  | press e hclear => exact absurd rfl hclear
  | take hi => rcases hi with hi | hi <;> cases hi

/-- A worker that has just taken an executor was not interrupted since. -/
theorem Outcome.not_interrupted (ho : Outcome b g i b' g' next) (hi : i = .seekWork w ∨ i = .awaitWork w) {e : Fin n}
    (hx : .openSlice w e ∈ next) : ¬Interrupted w g'.deeds := by
  have htaken : ∀ {w' : WorkerId} {e' : Fin n}, .openSlice w e ∈ [Instr.openSlice w' e'] → w' = w := by
    intro w' e' hmem
    simp at hmem
    exact hmem.1.symm
  rcases hi with rfl | rfl
  all_goals
    cases ho
    case take w' e' idle hi h' =>
      obtain rfl := htaken hx
      exact not_interrupted_of_taken _ _ _
    case close => simp at hx
    case await => simp at hx

end Instr

namespace Books

open Instr

variable {b b' : Books n} {g g' : Gear n} {a : Action n} {w : WorkerId} {e : Fin n}

/-- A worker is at one point of one slice. -/
theorem Orderly.point_unique (ho : b.Orderly) {x y : Instr n} (hx : x ∈ b.todo) (hy : y ∈ b.todo)
    (hwx : x.slices w = true) (hwy : y.slices w = true) : x = y := by
  have hone := ho.one_slice w
  have hx := List.mem_filter.2 ⟨hx, hwx⟩
  have hy := List.mem_filter.2 ⟨hy, hwy⟩
  rw [List.countP_eq_length_filter] at hone
  rcases hpoints : b.todo.filter (slices w) with _ | ⟨z, _ | ⟨z', points⟩⟩
  · rw [hpoints] at hx
    cases hx
  · rw [hpoints] at hx hy
    exact (List.mem_singleton.1 hx).trans (List.mem_singleton.1 hy).symm
  · rw [hpoints] at hone
    simp at hone

/-- A worker that runs a slice has it to close. -/
theorem Orderly.close_mem (ho : b.Orderly) {e : Fin n} (hcur : b.current[w]? = some (some e)) :
    ∃ a, .closeSlice w e a ∈ b.todo := by
  obtain ⟨t, code, a, ht, hclose, -⟩ := ho.closer hcur
  exact ⟨a, List.mem_flatten.2 ⟨code, List.mem_of_getElem? ht, hclose⟩⟩

/-- The interrupt of a worker is up while it runs a slice exactly if the worker was interrupted since it took the
executor. -/
structure Heeded (b : Books n) (g : Gear n) : Prop where
  /-- A worker whose thread has not begun has no slice. -/
  begun : ∀ w : WorkerId, g.started[w]? = some false → [.startWorker w, .nextSlice w] ∈ b.codes
  /-- Nobody interrupts a worker that opens a slice. -/
  fresh : ∀ x ∈ b.todo, ∀ w e, x.readies w e = true → ¬Interrupted w g.deeds
  /-- Its interrupt is down once its thread has taken it back. -/
  down : ∀ code ∈ b.codes, ∀ x ∈ code, ∀ w e, x.prepares w e = true → .clearInterrupt w ∉ code →
    g.interrupted[w]? = some false
  within : ∀ w e a, .closeSlice w e a ∈ b.todo → ∃ up, g.interrupted[w]? = some up ∧ (up = true ↔ Interrupted w g.deeds)

theorem Heeded.start (h : g.started = []) : Heeded (start : Books n) g := by
  constructor <;> simp [Books.start, todo, h]

/-- What an action does to a worker's interrupt. -/
theorem stirs_goes (hg : Goes b g a b' g') (w : WorkerId) :
    (∀ up, g.interrupted[w]? = some up → g'.interrupted[w]? = some up) ∧ (Interrupted w g'.deeds ↔ Interrupted w g.deeds) ∨
      ∃ (t : ThreadId) (i : Instr n) (rest : List (Instr n)), b.codes[t]? = some (i :: rest) ∧ Stirs w b g g' i := by
  cases hg with
  | step t i rest next b' g' ht hw he hl hd =>
    refine Or.inr ⟨t, i, rest, ht, ?_⟩
    have hstirs := (outcome hw he hl hd).stirs w
    cases hstirs with
    | keep hclear hup hdeeds => exact .keep hclear hup hdeeds
    | clear hi hup hdeeds => exact .clear hi hup hdeeds
    | press e hclear hcur hg => exact .press e hclear hcur hg
    | take hi hup hdeeds => exact .take hi hup hdeeds
  | _ => exact Or.inl ⟨fun _ h => h, Iff.rfl⟩

/-- A worker that opens a slice is not interrupted, nor is one whose interrupt was taken back. -/
theorem fresh_keep (ho : b.Orderly) (hg : Goes b g a b' g') {x : Instr n} (hx : x ∈ b.todo) (hr : x.readies w e = true)
    (h : ¬Interrupted w g.deeds) : ¬Interrupted w g'.deeds := by
  rcases stirs_goes hg w with ⟨-, hdeeds⟩ | ⟨t, i, rest, ht, hstirs⟩
  · rwa [hdeeds]
  · cases hstirs with
    | keep hclear hup hdeeds => rwa [hdeeds]
    | clear hi hup hdeeds => rwa [hdeeds]
    | press e hclear hcur hg =>
      obtain ⟨a, hclose⟩ := ho.close_mem hcur
      rw [ho.point_unique hx hclose (slices_of_readies hr) (by simp)] at hr
      cases hr
    | take hi hup hdeeds => exact hdeeds

theorem down_keep (ho : b.Orderly) (hg : Goes b g a b' g') {x : Instr n} (hx : x ∈ b.todo) (hr : x.readies w e = true)
    (h : g.interrupted[w]? = some false) : g'.interrupted[w]? = some false := by
  rcases stirs_goes hg w with ⟨hup, -⟩ | ⟨t, i, rest, ht, hstirs⟩
  · exact hup _ h
  · cases hstirs with
    | keep hclear hup hdeeds => exact hup _ h
    | clear hi hup hdeeds => rw [hup, List.getElem?_set_self (List.getElem?_eq_some_iff.1 h).1]
    | press e hclear hcur hg =>
      obtain ⟨a, hclose⟩ := ho.close_mem hcur
      rw [ho.point_unique hx hclose (slices_of_readies hr) (by simp)] at hr
      cases hr
    | take hi hup hdeeds => rwa [hup]

/-- A worker that runs a slice has begun its thread. -/
theorem started_of_current (h : ∀ w : WorkerId, g.started[w]? = some false → [.startWorker w, .nextSlice w] ∈ b.codes)
    (ho : b.Orderly) (hlen : g.started.length = b.current.length) {e : Fin n} (hcur : b.current[w]? = some (some e)) :
    g.started[w]? = some true := by
  have hlt : w < g.started.length := hlen ▸ (List.getElem?_eq_some_iff.1 hcur).1
  cases hup : g.started[w] with
  | true => rw [List.getElem?_eq_getElem hlt, hup]
  | false =>
    obtain ⟨t, ht⟩ := List.getElem?_of_mem (h w (by rw [List.getElem?_eq_getElem hlt, hup]))
    obtain ⟨t', code, a, ht', hclose, hnext⟩ := ho.closer hcur
    obtain rfl := ho.thread_unique ht ht' (by simp) hnext
    rw [ht] at ht'
    obtain rfl := Option.some.inj ht'
    simp at hclose

theorem Heeded.within_keep (h : b.Heeded g) (ho : b.Orderly) (hf : b.Fitted)
    (hlen : g.started.length = b.current.length) (hg : Goes b g a b' g') {e : Fin n} {d : UInt64}
    (hclose : .closeSlice w e d ∈ b.todo) :
    ∃ up, g'.interrupted[w]? = some up ∧ (up = true ↔ Interrupted w g'.deeds) := by
  obtain ⟨up, hup, hiff⟩ := h.within w e d hclose
  rcases stirs_goes hg w with ⟨hkeep, hdeeds⟩ | ⟨t, i, rest, ht, hstirs⟩
  · exact ⟨up, hkeep up hup, hiff.trans hdeeds.symm⟩
  · have hmem := List.mem_of_getElem? ht
    cases hstirs with
    | keep hclear hkeep hdeeds => exact ⟨up, hkeep up hup, hiff.trans hdeeds.symm⟩
    | clear hi hset hdeeds =>
      -- the interrupt is taken back by a thread that opens a slice of the worker
      subst hi
      obtain ⟨e', hrest⟩ := (hf _ hmem).1
      have hnote : .noteAllocated w e' ∈ b.todo := List.mem_flatten.2 ⟨_, hmem, by simp [hrest]⟩
      cases ho.point_unique (w := w) hnote hclose (by simp) (by simp)
    | press e' hclear hcur hg =>
      have hstarted := started_of_current h.begun ho hlen hcur
      refine ⟨true, ?_, ?_⟩
      · rw [hg]
        simp [Gear.interrupt, Gear.deed, hup, hstarted]
      · rw [hg]
        exact iff_of_true rfl (interrupted_concat.2 (Or.inl rfl))
    | take hi hset hdeeds =>
      have hi : i ∈ b.todo ∧ i.slices w = true := ⟨mem_todo ht, by rcases hi with rfl | rfl <;> simp⟩
      cases ho.point_unique hi.1 hclose hi.2 (by simp)
      rcases ‹_ ∨ _› with h | h <;> cases h

theorem Heeded.down_goes (h : b.Heeded g) (ho : b.Orderly) (hf : b.Fitted)
    (hlen : g.interrupted.length = b.current.length) (hg : Goes b g a b' g') {code : List (Instr n)}
    (hc : code ∈ b'.codes) {x : Instr n} (hx : x ∈ code) {e : Fin n} (hp : x.prepares w e = true)
    (hclear : .clearInterrupt w ∉ code) : g'.interrupted[w]? = some false := by
  have hold : ∀ {code : List (Instr n)} {y : Instr n}, code ∈ b.codes → y ∈ code → y.prepares w e = true →
      .clearInterrupt w ∉ code → g'.interrupted[w]? = some false := by
    intro code y hcode hy hpy hnone
    exact down_keep ho hg (List.mem_flatten.2 ⟨code, hcode, hy⟩) (readies_of_prepares hpy) (h.down code hcode y hy w e hpy hnone)
  rcases mem_codes_goes hg hc with hc | hbegins | ⟨c, rfl⟩ | rfl | ⟨t, i, rest, next, ht, hl, rfl, hout⟩
  · exact hold hc hx hp hclear
  · rw [hbegins.not_prepares hx] at hp
    cases hp
  · simp at hx
    subst hx
    cases hp
  · cases hx
  · have hmem := List.mem_of_getElem? ht
    by_cases hi : i = .clearInterrupt w
    · subst hi
      obtain ⟨e', hrest⟩ := (hf _ hmem).1
      have hnote : .noteAllocated w e' ∈ b.todo := List.mem_flatten.2 ⟨_, hmem, by simp [hrest]⟩
      have hlt : w < g.interrupted.length := hlen ▸ ho.started hnote (by simp)
      rcases hout with ⟨w', e', hwork⟩ | ⟨c, hout, -⟩
      · cases hwork
      · rw [(hout.stirs w).of_clear, List.getElem?_set_self hlt]
    · have hnone : .clearInterrupt w ∉ i :: rest := by
        rintro (_ | ⟨_, hrest⟩)
        · exact hi rfl
        · exact hclear (List.mem_append_right _ hrest)
      rcases List.mem_append.1 hx with hnext | hrest
      · rcases eq_of_prepares hp with rfl | ⟨d, rfl⟩
        · -- a slice that is begun has the interrupt to take back
          cases hl.yields hnext
          rcases hl with rfl | rfl
          · simp at hnext
          · simp at hclear
        · cases hl.yields hnext
          exact hold hmem (List.mem_cons_self ..) (by simp) hnone
      · exact hold hmem (List.mem_cons_of_mem _ hrest) hp hnone

theorem mem_of_begins {code : List (Instr n)} (h : Begins code) {x : Instr n} (hx : x ∈ code) :
    (∃ w, x = .startWorker w) ∨ (∃ w, x = .nextSlice w) ∨ x = .startWatchdog ∨ x = .watch := by
  rcases h with ⟨w, rfl⟩ | rfl <;> simp at hx <;> rcases hx with rfl | rfl <;> simp

theorem Heeded.fresh_goes (h : b.Heeded g) (ho : b.Orderly) (hg : Goes b g a b' g') {x : Instr n} (hx : x ∈ b'.todo)
    (hr : x.readies w e = true) : ¬Interrupted w g'.deeds := by
  rcases mem_todo_goes hg hx with hold | ⟨code, hbegins, hmem⟩ | ⟨c, rfl⟩ | ⟨w', e', hy⟩ |
    ⟨t, i, rest, next, c, ht, hy, hnext, hout, -⟩
  · exact fresh_keep ho hg hold hr (h.fresh x hold w e hr)
  · rcases mem_of_begins hbegins hmem with ⟨w', rfl⟩ | ⟨w', rfl⟩ | rfl | rfl <;> cases hr
  · cases hr
  · cases hy <;> cases hr
  · rcases hy.readies hr with hi | ⟨hi, rfl⟩
    · exact fresh_keep ho hg (mem_todo ht) hi (h.fresh i (mem_todo ht) w e hi)
    · exact hout.not_interrupted hi hnext

theorem Heeded.within_goes (h : b.Heeded g) (ho : b.Orderly) (hf : b.Fitted)
    (hlen : g.started.length = b.current.length) (hg : Goes b g a b' g') {e : Fin n} {d : UInt64}
    (hx : .closeSlice w e d ∈ b'.todo) :
    ∃ up, g'.interrupted[w]? = some up ∧ (up = true ↔ Interrupted w g'.deeds) := by
  rcases mem_todo_goes hg hx with hold | ⟨code, hbegins, hmem⟩ | ⟨c, hcall⟩ | ⟨w', e', hy⟩ |
    ⟨t, i, rest, next, c, ht, hy, -, -, -⟩
  · exact h.within_keep ho hf hlen hg hold
  · rcases mem_of_begins hbegins hmem with ⟨w', hi⟩ | ⟨w', hi⟩ | hi | hi <;> cases hi
  · cases hcall
  · cases hy
  · cases hy
    -- the slice is published with the interrupt down
    have hmem := List.mem_of_getElem? ht
    obtain rfl : rest = [.nextSlice w] := (hf _ hmem).1
    have hfresh := fresh_keep (w := w) (e := e) ho hg (mem_todo ht) (by simp) (h.fresh _ (mem_todo ht) w e (by simp))
    have hdown := down_keep (w := w) (e := e) ho hg (mem_todo ht) (by simp)
      (h.down _ hmem _ (List.mem_cons_self ..) w e (by simp) (by simp))
    exact ⟨false, hdown, by simp [hfresh]⟩

theorem Heeded.goes (h : b.Heeded g) (ho : b.Orderly) (hf : b.Fitted) (hs : g.started.length = b.current.length)
    (hi : g.interrupted.length = b.current.length) (hg : Goes b g a b' g') : b'.Heeded g' where
  begun _ := begun_goes h.begun ho hs hg
  fresh _ hx _ _ hr := h.fresh_goes ho hg hx hr
  down _ hc _ hx _ _ hp hclear := h.down_goes ho hf hi hg hc hx hp hclear
  within _ _ _ hx := h.within_goes ho hf hs hg hx

/-- A worker that was interrupted stays so while it has its slice to close. -/
theorem interrupted_keep (ho : b.Orderly) (hf : b.Fitted) (hg : Goes b g a b' g') {e : Fin n} {d : UInt64}
    (hclose : .closeSlice w e d ∈ b.todo) (h : g.interrupted[w]? = some true) : g'.interrupted[w]? = some true := by
  rcases stirs_goes hg w with ⟨hkeep, -⟩ | ⟨t, i, rest, ht, hstirs⟩
  · exact hkeep true h
  · have hmem := List.mem_of_getElem? ht
    cases hstirs with
    | keep hclear hkeep hdeeds => exact hkeep true h
    | clear hi hset hdeeds =>
      subst hi
      obtain ⟨e', hrest⟩ := (hf _ hmem).1
      have hnote : .noteAllocated w e' ∈ b.todo := List.mem_flatten.2 ⟨_, hmem, by simp [hrest]⟩
      cases ho.point_unique (w := w) hnote hclose (by simp) (by simp)
    | press e' hclear hcur hg => simp [hg, Gear.interrupt, Gear.deed, h]
    | take hi hset hdeeds => rwa [hset]

end Books

namespace Pool

variable {s : Pool n} {t : ThreadId} {w : WorkerId} {e : Fin n}

theorem length_interrupted (s : Pool n) : s.gear.interrupted.length = s.books.current.length := by simp [gear, books]

theorem run_heeded (config : SchedulerConfig) (context : Metrics.Context) (log : LogFilter) (hosts : Vector Host n)
    (actions : List (Action n)) :
    let s := (create config context log hosts).run actions
    s.Manning ∧ s.books.Heeded s.gear := by
  refine run_created (R := fun _ _ => True) (P := fun s => s.Manning ∧ s.books.Heeded s.gear) ?_
    ⟨create_manning config context log hosts, ?_⟩ (along_true _ actions)
  · rintro s a ho - ⟨hm, hs⟩ -
    exact ⟨hm.act ho a, hs.goes ho hm.fitted s.length_started s.length_interrupted (act_goes s a)⟩
  · rw [books_create]
    exact .start rfl

end Pool

end FairShare.Scheduler
