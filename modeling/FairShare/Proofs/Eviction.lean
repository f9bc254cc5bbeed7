import FairShare.Proofs.Attachment
import FairShare.Proofs.Containment
import FairShare.Proofs.Finality
import FairShare.Proofs.Slices
import FairShare.Scheduler.Scene

/-!
# No records of who is gone

The metrics context is told that an executor is unloaded after its last stay on a worker has ended, so nothing is observed
for the executor any more, unless a worker that was retired over it goes on. An observer that comes and goes by its own
starts and stops loses its record then, if it has one, and gets none again.
-/

namespace FairShare.Scheduler

variable {n : Nat}

/-! ## Who is never abandoned -/

/-- An unload that was just finished has still to be announced. -/
theorem Account.Move.finished {a a' : Account} (h : a.Move a') (hu : a'.unloaded = true) :
    a.unloaded = true ∨ 0 < a'.announcing := by
  cases h <;> first | exact Or.inl hu | exact Or.inr (Nat.succ_pos _)

namespace Books

open Instr

variable {b b' : Books n} {g g' : Gear n} {a : Action n} {e : Fin n}

/-- Whoever has a slice of an executor to close is the thread of the worker that has it. -/
def Kept (b : Books n) (e : Fin n) : Prop :=
  ∀ w : WorkerId, 0 < b.todo.countP (closes w e) → b.current[w]? = some (some e)

/-- A worker that has a slice keeps it as long as its thread has the slice to close. -/
theorem Kept.step_old (ho : b.Orderly) (hf : b.Fitted) {t : ThreadId} {i : Instr n} {rest next : List (Instr n)}
    {c : Books n} (ht : b.codes[t]? = some (i :: rest)) (he : i.Effect { b with codes := b.codes.set t rest } c next)
    (hl : i.Leads next) (hout : Outcome { b with codes := b.codes.set t rest } g i c g' next) {w : WorkerId}
    (hcur : b.current[w]? = some (some e)) (htake : i ≠ .takeAbandoned w)
    (hpos : 0 < ({ c with codes := c.codes.set t (next ++ rest) } : Books n).todo.countP (closes w e)) :
    c.current[w]? = some (some e) := by
  rcases hout.current_keep hcur with hkeep | hkeep | ⟨e', bytes, rfl⟩
  · exact hkeep
  · cases i with
    | closeSlice w' e' bytes =>
      -- It was the only one that there was to close.
      obtain rfl : w' = w := by simpa using hkeep
      obtain rfl := ho.closes_own (mem_todo ht) hcur
      have hcount := countP_step (p := closes w' e) (by rintro code (⟨v, rfl⟩ | rfl) <;> simp) ht he
      have hone := Nat.le_trans (closes_le_slices w' e b.todo) (ho.one_slice w')
      have hz : next.countP (closes w' e) = 0 := by rcases hl with rfl | ⟨slice, rfl⟩ <;> simp
      rw [List.countP_cons_of_pos (by simp)] at hcount
      omega
    | takeAbandoned w' =>
      obtain rfl : w' = w := by simpa using hkeep
      exact absurd rfl htake
    | _ => cases hkeep
  · exact (ho.not_publish hf hcur ht).elim

theorem Kept.goes (h : b.Kept e) (ho : b.Orderly) (hf : b.Fitted)
    (htake : ∀ t w rest, a = .step t → b.codes[t]? = some (.takeAbandoned w :: rest) → b.current[w]? ≠ some (some e))
    (hg : Goes b g a b' g') : b'.Kept e := by
  intro w hpos
  cases hg with
  | rest => exact h w hpos
  | advance => exact h w hpos
  | arrive c =>
    rw [countP_arrive] at hpos
    exact h w (by simpa using hpos)
  | perform t w' e' rest next x ht hx =>
    have hz : next.countP (closes w e) = 0 := by
      refine List.countP_eq_zero.2 fun y hy => ?_
      cases hx.leads.yields hy <;> simp
    have hcount := countP_replace (closes w e) ht next
    exact h w (by omega)
  | tear t e' o rest ht hfail => exact h w (Nat.lt_of_lt_of_le hpos (countP_tear (closes w e) ht))
  | step t i rest next c g' ht hw he hl hd =>
    obtain ⟨x, hx, hcloses⟩ := List.countP_pos_iff.1 hpos
    rcases mem_todo_step ht he hx with hold | hnext | ⟨code, hbegins, hin⟩
    · have hcur := h w (List.countP_pos_iff.2 ⟨x, hold, hcloses⟩)
      refine Kept.step_old ho hf ht he hl (outcome hw he hl hd) hcur ?_ hpos
      rintro rfl
      exact htake t w rest rfl ht hcur
    · have hyields := hl.yields hnext
      clear hnext hx
      cases x with
      | closeSlice w' e' bytes =>
        obtain ⟨rfl, rfl⟩ : w' = w ∧ e' = e := by simpa using hcloses
        cases hyields
        have hlt := ho.started (mem_todo ht) (w := w') (by simp)
        obtain ⟨rfl, -⟩ := he
        exact List.getElem?_set_self hlt
      | _ => cases hcloses
    · rcases hbegins with ⟨v, rfl⟩ | rfl <;> simp at hin <;> rcases hin with rfl | rfl <;> cases hcloses

/-- Nobody observes anything for an executor that is gone. -/
theorem Gone.silent (h : b.Gone e) (hk : b.Kept e) (hf : b.Fitted)
    (hbilled : ∀ code ∈ b.codes, ∀ o, .account e o ∈ code → .settle e ∈ code) {t : ThreadId} {i : Instr n}
    {rest : List (Instr n)} (ht : b.codes[t]? = some (i :: rest)) : i.observation? e = none := by
  have hmem := List.mem_of_getElem? ht
  cases i with
  | observe e' o =>
    refine if_neg ?_
    rintro rfl
    obtain ⟨w, bytes, hrest⟩ : ∃ w bytes, rest = [.work w e', .closeSlice w e' bytes, .nextSlice w] := (hf _ hmem).1
    have hin : .closeSlice w e' bytes ∈ b.todo := List.mem_flatten.2 ⟨_, hmem, by simp [hrest]⟩
    exact h.current w (hk w (List.countP_pos_iff.2 ⟨_, hin, by simp⟩))
  | account e' o =>
    refine if_neg ?_
    rintro rfl
    have hin : .settle e' ∈ b.todo := List.mem_flatten.2 ⟨_, hmem, hbilled _ hmem o (List.mem_cons_self ..)⟩
    have hpos : 0 < b.todo.countP (Instr.stays e') := List.countP_pos_iff.2 ⟨_, hin, by simp⟩
    exact absurd hpos (by rw [h.stays]; exact Nat.lt_irrefl 0)
  | _ => rfl

theorem announces_begins (code : List (Instr n)) (h : Begins code) : code.countP (announces e) = 0 := by
  rcases h with ⟨w, rfl⟩ | rfl <;> simp

theorem Noted.announces {rest : List (Instr n)} (h : Noted rest) : rest.countP (announces e) = 0 := by
  obtain ⟨accounts, e', left, ha, ⟨v, hleft⟩, rfl⟩ := h
  refine List.countP_eq_zero.2 fun x hx => ?_
  rcases List.mem_append.1 hx with hx | hx
  · rcases ha x hx with ⟨e'', o, rfl⟩ | ⟨e'', before, after, rfl⟩ <;> simp
  · rcases hleft with rfl | ⟨base, rfl | rfl | ⟨ws, rfl⟩, rfl⟩ <;> simp at hx <;> grind [Instr.announces]

/-- Whoever has to announce an unload does so. -/
theorem announces_goes (hf : b.Fitted) (hg : Goes b g a b' g') :
    b.todo.countP (announces e) ≤ b'.todo.countP (announces e) ∨
      ∃ t rest, a = .step t ∧ b.codes[t]? = some (.announce e :: rest) := by
  cases hg with
  | rest => exact Or.inl (Nat.le_refl _)
  | advance => exact Or.inl (Nat.le_refl _)
  | arrive c =>
    rw [countP_arrive]
    exact Or.inl (Nat.le_add_right ..)
  | perform t w' e' rest next x ht hx =>
    have hcount := countP_replace (announces e) ht next
    rw [List.countP_cons_of_neg (by simp), List.countP_nil] at hcount
    exact Or.inl (by omega)
  | tear t e' o rest ht hfail =>
    have hset := countP_flatten_set (announces e) ht []
    have hnoted : Noted rest := (hf _ (List.mem_of_getElem? ht)).1
    rw [List.countP_cons_of_neg (by simp), Noted.announces hnoted] at hset
    exact Or.inl (Nat.le_of_eq hset.symm)
  | step t i rest next c g' ht hw he hl hd =>
    by_cases hi : i.announces e = true
    · cases i with
      | announce e' =>
        obtain rfl : e' = e := by simpa using hi
        exact Or.inr ⟨t, rest, rfl, ht⟩
      | callHost e' callback => cases callback <;> cases hi
      | _ => cases hi
    · have hcount := countP_step (p := announces e) announces_begins ht he
      rw [List.countP_cons_of_neg hi, List.countP_nil] at hcount
      exact Or.inl (by omega)

end Books

namespace Pool

open Instr

variable {s : Pool n} {e : Fin n}

/-- Whether an action takes the slice of an executor from a worker that was retired over it. -/
def abandons (s : Pool n) (e : Fin n) (a : Action n) : Bool :=
  match s.head? a with
  | some (.takeAbandoned w) => s.current? w = some e
  | _ => false

/-- What an executor that is never abandoned can rely on. -/
structure Undisturbed (s : Pool n) (e : Fin n) : Prop where
  orderly : s.books.Orderly
  placed : ∀ e, (s.books.account e).Placed
  fitted : s.books.Fitted
  unloading : (s.books.account e).Unloading
  /-- Whoever makes an observation of its slice ends its stay after that. -/
  billed : ∀ code ∈ s.books.codes, ∀ o, .account e o ∈ code → .settle e ∈ code
  kept : s.books.Kept e

namespace Undisturbed

theorem act (h : s.Undisturbed e) {a : Action n} (ha : s.abandons e a = false) : (s.act a).Undisturbed e := by
  have hg := act_goes s a
  have hm := act_moves s a
  refine ⟨h.orderly.moves hm, fun e' => (h.placed e').move (hm.account h.orderly e'), h.fitted.goes hg,
    h.unloading.move (h.placed e) (hm.account h.orderly e),
    fun code hc o ho => Books.billed_goes h.billed h.fitted hg hc ho, h.kept.goes h.orderly h.fitted ?_ hg⟩
  rintro t w rest rfl ht hcur
  have hcode : s.code t = .takeAbandoned w :: rest := by rw [code_eq, ht, Option.getD_some]
  have hhead := head?_step hcode
  simp [abandons, hhead, (current_eq s w e).1 hcur] at ha

/-- Its unload is announced, or nobody who is told something of it afterwards is told an observation. -/
theorem act_announced (h : s.Undisturbed e) (a : Action n) (hun : ((s.act a).executor e).unloaded = true)
    (hdone : (s.act a).pending (announces e) = 0) : s.head? a = some (.announce e) ∨
      (s.executor e).unloaded = true ∧ s.pending (announces e) = 0 ∧
        ∀ i, s.head? a = some i → i.observation? e = none := by
  rcases Books.announces_goes (e := e) h.fitted (act_goes s a) with hle | ⟨t, rest, rfl, ht⟩
  · right
    have hdone : (s.act a).books.todo.countP (announces e) = 0 := hdone
    have hnone : s.books.todo.countP (announces e) = 0 := by omega
    have hold : s.books.unloaded e = true := by
      rcases ((act_moves s a).account h.orderly e).finished hun with hold | hpos
      · exact hold
      · exact absurd hdone (Nat.ne_of_gt hpos)
    refine ⟨hold, hnone, fun i hi => ?_⟩
    cases a with
    | step t =>
      obtain ⟨rest, hcode⟩ := List.head?_eq_some_iff.1 hi
      exact (Books.Gone.of_account (h.placed e) h.unloading hold).silent h.kept h.fitted h.billed (codes_of_code hcode)
    | _ => cases hi
  · left
    exact head?_step (by rw [code_eq, ht, Option.getD_some])

end Undisturbed

end Pool

/-! ## Scenes -/

namespace Pool

open Instr

variable {s : Pool n} {e : Fin n} {i : Nat} {p : Option Bool} {k : Metrics.RecordKeeper} {c : ComputerId}

/-- What an instruction makes of the metrics context leaves an observer attached, gives it a record of a computer only by an
observation for that, and takes away the record of one that is unloaded. -/
theorem informed_attached (hc : s.context.Coherent) (h : s.context.Attached i p k)
    (hid : ∀ e', (s.executor e').host.computer = c ↔ e' = e) (x : Instr n) :
    (s.informed x).Coherent ∧ ∃ k', (s.informed x).Attached i p k' ∧
      (c ∈ k'.computers → x ≠ .announce e ∧ (c ∈ k.computers ∨ x.observation? e ≠ none)) := by
  have hheard : ∀ e' o, (s.heard e' o).Coherent ∧ ∃ k', (s.heard e' o).Attached i p k' ∧
      (c ∈ k'.computers → c ∈ k.computers ∨ e' = e) := by
    intro e' o
    unfold heard
    split
    · rw [hc.observe_eq]
      refine ⟨hc.broadcast .., _, h.broadcast hc _ (.observed o), fun hm => ?_⟩
      split at hm
      · rcases h.indexed.mem_hear hm with hm | ⟨-, -, hother⟩
        · exact Or.inl hm
        · exact Or.inr ((hid e').1 hother.symm)
      · exact Or.inl hm
    · exact ⟨hc, k, h, Or.inl⟩
  cases x with
  | observe e' o | account e' o =>
    obtain ⟨hcoherent, k', hk', hmem⟩ := hheard e' o
    refine ⟨hcoherent, k', hk', fun hm => ⟨by simp, (hmem hm).imp_right fun he => ?_⟩⟩
    simp [Instr.observation?, he]
  | announce e' =>
    have hgone := h.broadcast hc (s.executor e').host.computer .unloaded
    refine ⟨hc.broadcast .., _, hgone, fun hm => ?_⟩
    split at hm
    · refine ⟨?_, Or.inl ?_⟩
      · rintro ⟨⟩
        rw [(hid e).2 rfl] at hm
        exact h.indexed.not_mem_evict c hm
      · obtain hm | ⟨o, ho, -⟩ := h.indexed.mem_hear hm
        · exact hm
        · cases ho
    · next hi =>
      rw [Metrics.RecordKeeper.computers, h.outside hi] at hm
      cases hm
  | _ => exact ⟨hc, k, h, fun hm => ⟨by simp, Or.inl hm⟩⟩

end Pool

namespace Scene

open Instr

variable {s : Scene n} {e : Fin n} {i : Nat} {c : ComputerId}

/-- Whether something leaves an executor on its worker, does not observe anything for its computer outside of the scheduler,
and has nothing to do with the registration of an observer but to start it or to stop it. -/
def admits (s : Scene n) (e : Fin n) (i : Nat) : Cue n → Bool
  | .act a => !s.pool.abandons e a
  | .tell c => c.spares i (s.pool.executor e).host.computer
  | _ => true

/-- Whether everything that happens does. -/
def Admits (s : Scene n) (e : Fin n) (i : Nat) : List (Cue n) → Bool
  | [] => true
  | cue :: cues => s.admits e i cue && (s.play cue).Admits e i cues

/-- An observer has no record of the computer of an executor that is unloaded. -/
structure Swept (s : Scene n) (e : Fin n) (i : Nat) (c : ComputerId) : Prop where
  undisturbed : s.pool.Undisturbed e
  /-- The computer is the executor's, and no other one's. -/
  owner : ∀ e', (s.pool.executor e').host.computer = c ↔ e' = e
  coherent : s.pool.context.Coherent
  swept : ∃ k, s.pool.context.Attached i (s.pending i) k ∧ ((s.pool.executor e).unloaded = true →
    s.pool.pending (announces e) = 0 → c ∉ k.computers)

namespace Swept

theorem act (h : s.Swept e i c) {a : Action n} (ha : s.pool.abandons e a = false) : (s.play (.act a)).Swept e i c := by
  obtain ⟨k, hk, hswept⟩ := h.swept
  have hhost : ∀ e', ((s.pool.act a).executor e').host = (s.pool.executor e').host :=
    Pool.run_host s.pool [a]
  have hcontext := Pool.act_context s.pool a
  have howner : ∀ e', ((s.pool.act a).executor e').host.computer = c ↔ e' = e := fun e' => by
    rw [hhost]
    exact h.owner e'
  have hnew := fun hun hdone => h.undisturbed.act_announced a hun hdone
  cases hhead : s.pool.head? a with
  | none =>
    rw [hhead] at hcontext hnew
    refine ⟨h.undisturbed.act ha, howner, hcontext ▸ h.coherent, k, hcontext ▸ hk, fun hun hdone => ?_⟩
    obtain ⟨hold, hnone, -⟩ := (hnew hun hdone).resolve_left (by simp)
    exact hswept hold hnone
  | some x =>
    rw [hhead] at hcontext hnew
    obtain ⟨hcoherent, k', hk', hmem⟩ := Pool.informed_attached h.coherent hk h.owner x
    refine ⟨h.undisturbed.act ha, howner, hcontext ▸ hcoherent, k', hcontext ▸ hk', fun hun hdone => ?_⟩
    intro hm
    obtain ⟨hother, hm⟩ := hmem hm
    obtain ⟨hold, hnone, hsilent⟩ := (hnew hun hdone).resolve_left fun hx => hother (Option.some.inj hx)
    exact hm.elim (hswept hold hnone) fun hobs => hobs (hsilent x rfl)

/-- What happens to the context beside the scheduler. -/
theorem aside (h : s.Swept e i c) {context : Metrics.Context} (hc : context.Coherent) {pending : Nat → Option Bool}
    (hk : ∀ k, s.pool.context.Attached i (s.pending i) k → ∃ k', context.Attached i (pending i) k' ∧
      (c ∈ k'.computers → c ∈ k.computers)) :
    ({ pool := { s.pool with context }, pending } : Scene n).Swept e i c := by
  obtain ⟨k, hattached, hswept⟩ := h.swept
  obtain ⟨k', hk', hmem⟩ := hk k hattached
  have hu := h.undisturbed
  exact ⟨⟨hu.orderly, hu.placed, hu.fitted, hu.unloading, hu.billed, hu.kept⟩, h.owner, hc, k', hk',
    fun hun hdone hm => hswept hun hdone (hmem hm)⟩

theorem turn (h : s.Swept e i c) (j : Nat) (on : Bool) : (s.play (.turn j on)).Swept e i c := by
  by_cases hp : (s.pending j).isSome = true
  · rw [play, if_pos hp]
    exact h
  · rw [play, if_neg hp]
    refine h.aside (h.coherent.setTracking j on) fun k hk => ?_
    by_cases hj : i = j
    · subst hj
      have hnone : s.pending i = none := by simpa using hp
      refine ⟨_, by simpa [hnone] using (hnone ▸ hk).turn on, fun hm => ?_⟩
      cases hm
    · refine ⟨k, ?_, id⟩
      simp only [hj, if_false]
      refine hk.keep ?_ (by simp)
      rw [Metrics.Context.setTracking_observers, List.getElem?_modify_ne _ _ (Ne.symm hj)]

theorem conclude (h : s.Swept e i c) (j : Nat) : (s.play (.conclude j)).Swept e i c := by
  cases hp : s.pending j with
  | none =>
    simp only [play, hp]
    exact h
  | some on =>
    cases on with
    | true =>
      simp only [play, hp]
      refine h.aside (h.coherent.addObserver j) fun k hk => ⟨k, ?_, id⟩
      by_cases hj : i = j
      · subst hj
        simpa using (hp ▸ hk).enter
      · simp only [hj, if_false]
        refine hk.keep (by simp) ?_
        rw [Metrics.Context.addObserver_registered]
        split
        · rfl
        · simp [hj]
    | false =>
      simp only [play, hp]
      refine h.aside (h.coherent.removeObserver j) fun k hk => ⟨k, ?_, id⟩
      by_cases hj : i = j
      · subst hj
        simpa using (hp ▸ hk).leave
      · simp only [hj, if_false]
        exact hk.keep (by simp) (by simp [hj])

theorem play (h : s.Swept e i c) {cue : Cue n} (hcue : s.admits e i cue = true) : (s.play cue).Swept e i c := by
  cases cue with
  | act a => exact h.act (by simpa [admits] using hcue)
  | turn j on => exact h.turn j on
  | conclude j => exact h.conclude j
  | tell call => exact h.aside (h.coherent.after call) fun k hk => hk.after h.coherent ((h.owner e).2 rfl ▸ hcue)

theorem run (h : s.Swept e i c) {cues : List (Cue n)} (hcues : s.Admits e i cues = true) : (s.run cues).Swept e i c := by
  induction cues generalizing s with
  | nil => exact h
  | cons cue cues ih =>
    obtain ⟨hcue, hrest⟩ := (Bool.and_eq_true _ _).mp hcues
    exact ih (h.play hcue) hrest

end Swept

/-- A start or a stop that nothing else comes between is the one of the context. -/
theorem run_turn_conclude (s : Scene n) {i : Nat} (hi : s.pending i = none) (on : Bool) :
    (s.run [.turn i on, .conclude i]).pool.context = s.pool.context.after (if on then .start i else .stop i) := by
  have hturn : s.play (.turn i on) = (s.setContext (s.pool.context.setTracking i on).1).setPending i
      (if (s.pool.context.setTracking i on).2 = on then none else some on) := by
    rw [play, hi]
    rfl
  have hrun : s.run [.turn i on, .conclude i] = (s.play (.turn i on)).play (.conclude i) := rfl
  rw [hrun, hturn]
  cases on with
  | true =>
    simp only [Metrics.Context.after, Metrics.Context.start, if_true]
    cases h : s.pool.context.setTracking i true with
    | mk c was => cases was <;> simp [play, setPending, setContext]
  | false =>
    simp only [Metrics.Context.after, Metrics.Context.stop, Bool.false_eq_true, if_false]
    cases h : s.pool.context.setTracking i false with
    | mk c was => cases was <;> simp [play, setPending, setContext]

/-- A scheduler with one executor, whose metrics context has a keeper of records. -/
def watched : Scene 1 :=
  quiet (.create {} ({ Metrics.Context.watched with observers := [.records {}] }.run []) none
    (.replicate 1 { computer := ⟨0⟩, sink := .context }))

end Scene

end FairShare.Scheduler
