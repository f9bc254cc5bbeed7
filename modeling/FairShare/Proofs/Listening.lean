import FairShare.Proofs.Attachment
import FairShare.Proofs.Delivery

/-!
# Observers that were started

Whether an observer of the library listens is kept in two places, in its own mark and among the registered observers of
the context. A start and a stop look at the mark alone. So the two agree, unless the context is shut down after the
observer was started: then it stays marked, and another start does not register it before it is stopped.
-/

namespace FairShare.Metrics

/-- An observer of the library, which can be started and stopped. -/
def Observer.isKeeper : Observer → Bool
  | host _ => false
  | _ => true

namespace Observer

variable {o : Observer}

theorem setTracking_tracking (h : o.isKeeper = true) (on : Bool) : (o.setTracking on).tracking = on := by
  cases o <;> first | rfl | cases h

theorem setTracking_isKeeper (o : Observer) (on : Bool) : (o.setTracking on).isKeeper = o.isKeeper := by
  cases o <;> rfl

theorem hear_isKeeper (o : Observer) (computer : ComputerId) (call : Call) :
    (o.hear computer call).isKeeper = o.isKeeper := by
  cases o <;> rfl

theorem hear_tracking (o : Observer) (computer : ComputerId) (call : Call) :
    (o.hear computer call).tracking = o.tracking := by
  cases o with
  | records k => exact k.hear_tracking computer call
  | totals k => cases call <;> rfl
  | host h => rfl

end Observer

/-- Whether a call starts an observer or stops it, if it is either. -/
def ContextCall.turn? (i : Nat) : ContextCall → Option Bool
  | .start j => if j = i then some true else none
  | .stop j => if j = i then some false else none
  | _ => none

namespace Context

variable {c : Context} {i : Nat}

/-- Whether an observer is one of the library. -/
def keeps (c : Context) (i : Nat) : Bool := c.observers[i]?.any (·.isKeeper)

/-- An observer of the library tracks when it is started, and no longer when it is stopped. -/
theorem setTracking_tracks (h : c.keeps i = true) (j : Nat) (on : Bool) :
    (c.setTracking j on).1.keeps i = true ∧ (c.setTracking j on).1.tracks i = if j = i then on else c.tracks i := by
  rw [keeps, tracks, setTracking_observers, List.getElem?_modify, tracks]
  rw [keeps] at h
  cases ho : c.observers[i]? with
  | none => simp [ho] at h
  | some o =>
    have hkeeper : o.isKeeper = true := by simpa [ho] using h
    by_cases hj : j = i <;> simp [hj, hkeeper, Observer.setTracking_isKeeper, Observer.setTracking_tracking]

theorem Coherent.broadcast_tracks (hc : c.Coherent) (h : c.keeps i = true) (computer : ComputerId) (call : Call) :
    (c.broadcast computer call).1.keeps i = true ∧ (c.broadcast computer call).1.tracks i = c.tracks i := by
  rw [keeps, tracks, hc.broadcast_getElem?, tracks]
  rw [keeps] at h
  cases ho : c.observers[i]? with
  | none => simp [ho] at h
  | some o =>
    have hkeeper : o.isKeeper = true := by simpa [ho] using h
    by_cases hi : i ∈ c.registered <;> simp [hi, hkeeper, Observer.hear_isKeeper, Observer.hear_tracking]

theorem Coherent.after_tracks (hc : c.Coherent) (h : c.keeps i = true) (call : ContextCall) :
    (c.after call).keeps i = true ∧ (c.after call).tracks i = (call.turn? i).getD (c.tracks i) := by
  cases call with
  | start j =>
    have hset := setTracking_tracks h j true
    rw [keeps, tracks, Context.after, start_observers]
    refine ⟨hset.1, hset.2.trans ?_⟩
    by_cases hj : j = i <;> simp [ContextCall.turn?, hj]
  | stop j =>
    have hset := setTracking_tracks h j false
    rw [keeps, tracks, Context.after, stop_observers]
    refine ⟨hset.1, hset.2.trans ?_⟩
    by_cases hj : j = i <;> simp [ContextCall.turn?, hj]
  | add j =>
    rw [keeps, tracks, Context.after, addObserver_observers]
    exact ⟨h, rfl⟩
  | remove j => exact ⟨h, rfl⟩
  | observe computer o =>
    simp only [Context.after, hc.observe_eq]
    exact hc.broadcast_tracks h computer _
  | unload computer => exact hc.broadcast_tracks h computer _
  | shutdown => exact ⟨h, rfl⟩

/-! ## Marked, but not registered -/

/-- The context was shut down while an observer tracked, and the observer was not stopped since. -/
def Stranded (c : Context) (calls : List ContextCall) (i : Nat) : Prop :=
  ∃ before after, calls = before ++ .shutdown :: after ∧ (c.run before).tracks i = true ∧ .stop i ∉ after

theorem not_stranded_nil : ¬c.Stranded [] i := by
  rintro ⟨before, after, hcalls, -⟩
  simp at hcalls

theorem stranded_concat {calls : List ContextCall} {x : ContextCall} : c.Stranded (calls ++ [x]) i ↔
    x = .shutdown ∧ (c.run calls).tracks i = true ∨ c.Stranded calls i ∧ x ≠ .stop i := by
  constructor
  · rintro ⟨before, after, hcalls, htracks, hstop⟩
    rcases List.eq_nil_or_concat after with rfl | ⟨after, y, rfl⟩
    · obtain ⟨rfl, hx⟩ := List.append_inj' hcalls rfl
      exact Or.inl ⟨(List.cons.inj hx).1, htracks⟩
    · rw [List.concat_eq_append] at hcalls hstop
      have hsplit : calls ++ [x] = (before ++ .shutdown :: after) ++ [y] := by simpa using hcalls
      obtain ⟨rfl, hx⟩ := List.append_inj' hsplit rfl
      obtain rfl := (List.cons.inj hx).1
      refine Or.inr ⟨⟨before, after, rfl, htracks, fun hmem => hstop (List.mem_append_left _ hmem)⟩, ?_⟩
      rintro rfl
      exact hstop (by simp)
  · rintro (⟨rfl, htracks⟩ | ⟨⟨before, after, rfl, htracks, hstop⟩, hx⟩)
    · exact ⟨calls, [], rfl, htracks, List.not_mem_nil⟩
    · exact ⟨before, after ++ [x], by simp, htracks, by simpa [hstop] using Ne.symm hx⟩

/-- What a call makes of an observer that nobody else registers or takes off. -/
structure InStep (c : Context) (calls : List ContextCall) (i : Nat) : Prop where
  keeps : (c.run calls).keeps i = true
  /-- It is registered while it tracks, but for a shutdown. -/
  registered : i ∈ (c.run calls).registered ↔ (c.run calls).tracks i = true ∧ ¬c.Stranded calls i
  stranded : c.Stranded calls i → (c.run calls).tracks i = true

theorem run_concat (c : Context) (calls : List ContextCall) (x : ContextCall) :
    c.run (calls ++ [x]) = (c.run calls).after x := by
  simp [run]

theorem mem_roll_of_turn?_none {x : ContextCall} (hx : x ≠ .add i ∧ x ≠ .remove i ∧ x ≠ .shutdown)
    (hturn : x.turn? i = none) : i ∈ c.roll x ↔ i ∈ c.registered := by
  cases x with
  | start j =>
    have hj : j ≠ i := by simpa [ContextCall.turn?] using hturn
    rw [roll]
    split <;> simp [Ne.symm hj]
  | stop j =>
    have hj : j ≠ i := by simpa [ContextCall.turn?] using hturn
    rw [roll]
    split <;> simp [Ne.symm hj]
  | add j =>
    have hj : j ≠ i := fun heq => hx.1 (heq ▸ rfl)
    rw [roll]
    split <;> simp [Ne.symm hj]
  | remove j =>
    have hj : j ≠ i := fun heq => hx.2.1 (heq ▸ rfl)
    simp [roll, Ne.symm hj]
  | shutdown => exact absurd rfl hx.2.2
  | observe computer o => exact Iff.rfl
  | unload computer => exact Iff.rfl

theorem eq_of_turn? {x : ContextCall} {on : Bool} (h : x.turn? i = some on) : x = if on then .start i else .stop i := by
  cases x with
  | start j =>
    obtain ⟨rfl, rfl⟩ : j = i ∧ true = on := by simpa [ContextCall.turn?] using h
    rfl
  | stop j =>
    obtain ⟨rfl, rfl⟩ : j = i ∧ false = on := by simpa [ContextCall.turn?] using h
    rfl
  | _ => cases h

theorem InStep.concat (hc : c.Coherent) {calls : List ContextCall} (h : c.InStep calls i) {x : ContextCall}
    (hx : x ≠ .add i ∧ x ≠ .remove i) : c.InStep (calls ++ [x]) i := by
  have hnow := (hc.run calls).after_tracks h.keeps x
  have hroll := after_registered (c.run calls) x
  obtain ⟨-, hreg, hstr⟩ := h
  rw [← run_concat] at hnow hroll
  refine ⟨hnow.1, ?_, ?_⟩ <;> rw [hnow.2, stranded_concat]
  case refine_1 =>
    rw [hroll]
    cases hturn : x.turn? i with
    | none =>
      by_cases hshut : x = .shutdown
      · subst hshut
        by_cases ht : (c.run calls).tracks i = true <;> simp [roll, ht]
      · have hstop : x ≠ .stop i := by
          rintro rfl
          simp [ContextCall.turn?] at hturn
        rw [mem_roll_of_turn?_none ⟨hx.1, hx.2, hshut⟩ hturn, hreg]
        simp [hshut, hstop]
    | some on =>
      obtain rfl := eq_of_turn? hturn
      by_cases ht : (c.run calls).tracks i = true
      · cases on <;> simp [roll, ht, hreg]
      · -- who does not track is not registered, and not stranded
        have hnot : i ∉ (c.run calls).registered := fun hmem => ht (hreg.1 hmem).1
        cases on <;> simp [roll, ht, hnot, mt hstr ht]
  case refine_2 =>
    rintro (⟨rfl, ht⟩ | ⟨hs, hstop⟩)
    · exact ht
    · cases hturn : x.turn? i with
      | none => exact hstr hs
      | some on =>
        cases on with
        | true => rfl
        | false => exact absurd (eq_of_turn? hturn) hstop

theorem InStep.run (hc : c.Coherent) (hkeeps : c.keeps i = true) (hoff : c.tracks i = false) (hout : i ∉ c.registered)
    {calls : List ContextCall} (hcalls : ∀ x ∈ calls, x ≠ .add i ∧ x ≠ .remove i) : c.InStep calls i := by
  induction calls using List.reverseRecOn with
  | nil => exact ⟨hkeeps, by simp [Context.run, hoff, hout], fun h => absurd h not_stranded_nil⟩
  | append_singleton calls x ih =>
    exact (ih fun y hy => hcalls y (List.mem_append_left _ hy)).concat hc (hcalls x (by simp))

/-- An observer tracks, is registered once, and takes in the next observation. -/
structure Hears (c : Context) (i : Nat) : Prop where
  tracks : c.tracks i = true
  once : c.registered.count i = 1
  told : ∀ computer o, (c.observe computer o).2.filterMap (Note.toldTo? i) = [(computer, .observed o)]
  heard : ∀ computer o,
    (c.observe computer o).1.observers[i]? = c.observers[i]?.map (·.hear computer (.observed o))

theorem listens_of_keeps (h : c.keeps i = true) (call : Call) : c.listens i call = true := by
  rw [keeps] at h
  rw [listens]
  cases ho : c.observers[i]? with
  | none => simp [ho] at h
  | some o =>
    cases o with
    | host observer => simp [ho, Observer.isKeeper] at h
    | _ => rfl

theorem Coherent.hears (hc : c.Coherent) (hkeeps : c.keeps i = true) (ht : c.tracks i = true) (hi : i ∈ c.registered) :
    c.Hears i := by
  refine ⟨ht, List.count_eq_one_of_mem hc.distinct hi, fun computer o => ?_, fun computer o => ?_⟩
  · rw [hc.observe_notes, hc.broadcast_toldTo, if_pos ⟨hi, listens_of_keeps hkeeps _⟩]
  · rw [hc.observe_eq, hc.broadcast_getElem?, if_pos hi]

/-- Right after a start an observer of the library tracks and hears the next observation, unless the context was shut
down since it was started; right after a stop it does neither. Whatever else is done, but that others register the
observer or take it off. -/
theorem run_listens {r : Registry} {new : Context} (hnew : ofRegistry r = .ok new) (observers : List Observer) {i : Nat}
    (hi : observers[i]? = some (.records {}) ∨ observers[i]? = some (.totals (.create r))) (calls : List ContextCall)
    (hcalls : ∀ x ∈ calls, x ≠ .add i ∧ x ≠ .remove i) :
    let first : Context := { new with observers }
    let started := (first.run calls).after (.start i)
    let stopped := (first.run calls).after (.stop i)
    (started.tracks i = true ∧ (¬first.Stranded calls i → started.Hears i) ∧
        (first.Stranded calls i → i ∉ started.registered)) ∧
      stopped.tracks i = false ∧ i ∉ stopped.registered := by
  intro first started stopped
  have hc := coherent_of_ofRegistry hnew
  have hfirst : first.Coherent := ⟨hc.distinct, hc.marked⟩
  have hnone : first.registered = [] := (ofRegistry_registered hnew :)
  have hkeeps : first.keeps i = true := by rcases hi with hi | hi <;> simp [first, Context.keeps, hi, Observer.isKeeper]
  have hoff : first.tracks i = false := by
    rcases hi with hi | hi <;> simp [first, Context.tracks, hi, Observer.tracking, TotalKeeper.create]
  have hrun := InStep.run hfirst hkeeps hoff (by simp [hnone]) hcalls
  have hstarted := hrun.concat hfirst (x := .start i) (by simp)
  have hstopped := hrun.concat hfirst (x := .stop i) (by simp)
  have hon : started.tracks i = true := by
    simp [started, ((hfirst.run calls).after_tracks hrun.keeps _).2, ContextCall.turn?]
  have hoff : stopped.tracks i = false := by
    simp [stopped, ((hfirst.run calls).after_tracks hrun.keeps _).2, ContextCall.turn?]
  have hreg : i ∈ started.registered ↔ ¬first.Stranded calls i := by
    have h := hstarted.registered
    rw [run_concat, stranded_concat] at h
    simpa [started, hon] using h
  have hgone : i ∉ stopped.registered := by
    have h := hstopped.registered
    rw [run_concat] at h
    exact fun hmem => Bool.false_ne_true (hoff.symm.trans (h.1 hmem).1)
  refine ⟨⟨hon, fun hs => ?_, fun hs hmem => hreg.1 hmem hs⟩, hoff, hgone⟩
  exact ((hfirst.run calls).after _).hears (by simpa [run_concat] using hstarted.keeps) hon (hreg.2 hs)

/-- Two keepers, one of records and one of sums. -/
def twoKeepers : Context := { watched with observers := [.records {}, .totals (.create .standard)] }

/-- Both are started, and the context is shut down; the first is stopped and the second is not. -/
def shutDownAmid : List ContextCall :=
  [.start 0, .start 1, .observe ⟨1⟩ (.counter watched.standard.fsOps), .shutdown, .stop 0]

/-- The one that was stopped can be started again. -/
theorem listens_shutDownAmid :
    (twoKeepers.run shutDownAmid).registered = [] ∧ ¬twoKeepers.Stranded shutDownAmid 0 ∧
      ((twoKeepers.run shutDownAmid).after (.start 0)).Hears 0 ∧
      ((twoKeepers.run shutDownAmid).after (.stop 0)).tracks 0 = false ∧
      0 ∉ ((twoKeepers.run shutDownAmid).after (.stop 0)).registered := by
  have hnot : ¬twoKeepers.Stranded shutDownAmid 0 := by
    intro h
    have hstop : shutDownAmid = shutDownAmid.dropLast ++ [.stop 0] := rfl
    rw [hstop, stranded_concat] at h
    simp at h
  obtain ⟨⟨-, hhears, -⟩, hoff, hgone⟩ := run_listens ofRegistry_standard twoKeepers.observers (i := 0) (Or.inl rfl)
    shutDownAmid (by decide)
  exact ⟨by decide +kernel, hnot, hhears hnot, hoff, hgone⟩

/-- The other one is started, tracks, and hears nothing. -/
theorem restart_after_shutdown :
    ((twoKeepers.run shutDownAmid).after (.start 1)).tracks 1 = true ∧
      ((twoKeepers.run shutDownAmid).after (.start 1)).registered = [] ∧
      (((twoKeepers.run shutDownAmid).after (.start 1)).observe ⟨1⟩ (.counter watched.standard.fsOps)).2 = [] := by
  decide +kernel

end Context

end FairShare.Metrics
