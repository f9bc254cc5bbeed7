import FairShare.Proofs.Replay

/-!
# Keepers that come and go by themselves

An observer that is registered only by its own start and taken off only by its own stop has records only while it is
registered: both clear them first. So whenever a computer is gone for good, the record of it goes wherever there is one.
-/

namespace FairShare.Metrics

namespace RecordKeeper

variable {k : RecordKeeper} {computer other : ComputerId} {call : Call}

theorem hear_tracking (k : RecordKeeper) (computer : ComputerId) (call : Call) :
    (k.hear computer call).tracking = k.tracking := by
  cases call with
  | observed o =>
    show (if k.tracking = true then k.record computer o else k).tracking = k.tracking
    split
    · cases hplace : k.place? computer with
      | some j => rw [record_of_place hplace]
      | none => rw [record_of_new hplace]
    · rfl
  | unloaded =>
    show (k.evict computer).tracking = k.tracking
    unfold evict
    split <;> rfl

theorem Indexed.hear (h : k.Indexed) (computer : ComputerId) (call : Call) : (k.hear computer call).Indexed := by
  cases call with
  | observed o =>
    show (if k.tracking = true then k.record computer o else k).Indexed
    split
    · exact h.record computer o
    · exact h
  | unloaded => exact h.evict computer

theorem Indexed.not_mem_evict (h : k.Indexed) (computer : ComputerId) : computer ∉ (k.evict computer).computers := by
  intro hmem
  obtain ⟨r, hr, hcomputer⟩ := List.mem_map.1 hmem
  exact (h.mem_evict.1 hr).2 hcomputer

/-- Whoever has a record after something was told had one before, or was observed. -/
theorem Indexed.mem_hear (h : k.Indexed) (hm : other ∈ (k.hear computer call).computers) :
    other ∈ k.computers ∨ ∃ o, call = .observed o ∧ other = computer := by
  cases call with
  | observed o =>
    have hm : other ∈ (if k.tracking = true then k.record computer o else k).computers := hm
    split at hm
    · rw [h.computers_record] at hm
      split at hm
      · exact Or.inl hm
      · exact (List.mem_append.1 hm).imp_right fun hnew => ⟨o, rfl, List.mem_singleton.1 hnew⟩
    · exact Or.inl hm
  | unloaded =>
    obtain ⟨r, hr, rfl⟩ := List.mem_map.1 hm
    exact Or.inl (List.mem_map_of_mem (h.mem_evict.1 hr).1)

/-- A keeper that takes nothing in and has no records gets none. -/
theorem hear_bare (ht : k.tracking = false) (hr : k.records = []) (computer : ComputerId) (call : Call) :
    (k.hear computer call).records = [] := by
  cases call with
  | observed o => simp [hear, ht, hr]
  | unloaded => exact List.sublist_nil.1 (hr ▸ evict_sublist k computer)

end RecordKeeper

/-- Whether a call on a context has nothing to do with the registration of an observer, and makes no observation of a
computer. -/
def ContextCall.spares (i : Nat) (computer : ComputerId) : ContextCall → Bool
  | .start j | .stop j | .add j | .remove j => j ≠ i
  | .observe other _ => other ≠ computer
  | .unload _ => true
  | .shutdown => false

namespace Context

/-- A keeper of records that is registered when it was started and taken off when it was stopped, and at the moment is
started, or stopped, or neither. -/
structure Attached (c : Context) (i : Nat) (p : Option Bool) (k : RecordKeeper) : Prop where
  kept : c.observers[i]? = some (.records k)
  indexed : k.Indexed
  /-- It is registered exactly while it takes observations in. -/
  steady : p = none → (k.tracking = true ↔ i ∈ c.registered)
  /-- It takes them in before it is registered, and no longer before it is taken off. -/
  turning : ∀ on, p = some on → k.tracking = on ∧ (i ∈ c.registered ↔ on = false)
  /-- It has records only while it is started for good. -/
  bare : p ≠ none ∨ k.tracking = false → k.records = []

theorem mem_addObserver_registered {c : Context} {i j : Nat} (hj : j ≠ i) :
    i ∈ (c.addObserver j).1.registered ↔ i ∈ c.registered := by
  rw [addObserver_registered]
  split
  · rfl
  · simp [Ne.symm hj]

theorem mem_start_registered {c : Context} {i j : Nat} (hj : j ≠ i) :
    i ∈ (c.start j).1.registered ↔ i ∈ c.registered := by
  rw [← setTracking_registered c j true]
  unfold start
  split
  case h_1 heq => rw [heq]
  case h_2 heq => rw [heq, mem_addObserver_registered hj]

theorem mem_stop_registered {c : Context} {i j : Nat} (hj : j ≠ i) :
    i ∈ (c.stop j).1.registered ↔ i ∈ c.registered := by
  rw [← setTracking_registered c j false]
  unfold stop
  split
  case h_1 heq => rw [heq]
  case h_2 heq =>
    rw [heq, removeObserver_registered]
    simp [Ne.symm hj]

theorem start_getElem?_of_ne {i j : Nat} (c : Context) (hj : j ≠ i) :
    (c.start j).1.observers[i]? = c.observers[i]? := by
  rw [start_observers, setTracking_observers, List.getElem?_modify_ne _ _ hj]

theorem stop_getElem?_of_ne {i j : Nat} (c : Context) (hj : j ≠ i) :
    (c.stop j).1.observers[i]? = c.observers[i]? := by
  rw [stop_observers, setTracking_observers, List.getElem?_modify_ne _ _ hj]

namespace Attached

variable {c c' : Context} {i : Nat} {p : Option Bool} {k : RecordKeeper}

/-- Who is not registered has no records. -/
theorem outside (h : c.Attached i p k) (hi : i ∉ c.registered) : k.records = [] := by
  cases p with
  | some on => exact h.bare (Or.inl (by simp))
  | none => exact h.bare (Or.inr (Bool.eq_false_iff.2 (mt (h.steady rfl).1 hi)))

theorem keep (h : c.Attached i p k) (hobs : c'.observers[i]? = c.observers[i]?)
    (hreg : i ∈ c'.registered ↔ i ∈ c.registered) : c'.Attached i p k :=
  ⟨hobs.trans h.kept, h.indexed, fun hp => (h.steady hp).trans hreg.symm,
    fun on hp => ⟨(h.turning on hp).1, hreg.trans (h.turning on hp).2⟩, h.bare⟩

theorem broadcast (h : c.Attached i p k) (hc : c.Coherent) (computer : ComputerId) (call : Call) :
    (c.broadcast computer call).1.Attached i p (if i ∈ c.registered then k.hear computer call else k) := by
  have hkept := hc.broadcast_getElem? computer call i
  by_cases hi : i ∈ c.registered
  · rw [if_pos hi] at hkept ⊢
    have htracking := k.hear_tracking computer call
    refine ⟨by rw [hkept, h.kept]; rfl, h.indexed.hear computer call, fun hp => ?_, fun on hp => ?_, fun hbare => ?_⟩
    · rw [htracking]
      exact h.steady hp
    · rw [htracking]
      exact h.turning on hp
    · rw [htracking] at hbare
      have hoff : k.tracking = false := by
        rcases hbare with hp | hoff
        · obtain ⟨on, rfl⟩ := Option.ne_none_iff_exists'.1 hp
          obtain ⟨hon, hreg⟩ := h.turning on rfl
          exact hon.trans (hreg.1 hi)
        · exact hoff
      exact RecordKeeper.hear_bare hoff (h.bare hbare) computer call
  · rw [if_neg hi] at hkept ⊢
    exact h.keep hkept Iff.rfl

/-- A start or a stop begins with the mark of the observer, and clears its records. -/
theorem turn (h : c.Attached i none k) (on : Bool) :
    (c.setTracking i on).1.Attached i (if (c.setTracking i on).2 = on then none else some on)
      { k.clear with tracking := on } := by
  have hwas : (c.setTracking i on).2 = k.tracking := by
    unfold setTracking
    rw [h.kept]
    rfl
  have hreg := h.steady rfl
  refine ⟨?_, k.indexed_clear, fun hp => ?_, fun on' hp => ?_, fun _ => rfl⟩
  · rw [setTracking_observers, List.getElem?_modify_eq, h.kept]
    rfl
  · rw [hwas] at hp
    rw [setTracking_registered]
    have hon : k.tracking = on := by by_contra hne; simp [hne] at hp
    exact hon ▸ hreg
  · rw [hwas] at hp
    rw [setTracking_registered]
    by_cases hon : k.tracking = on
    · simp [hon] at hp
    · obtain rfl : on = on' := by simpa [hon] using hp
      refine ⟨rfl, ?_⟩
      rw [← hreg]
      cases on <;> simpa using hon

theorem enter (h : c.Attached i (some true) k) : (c.addObserver i).1.Attached i none k := by
  obtain ⟨hon, hreg⟩ := h.turning true rfl
  refine ⟨by rw [addObserver_observers, h.kept], h.indexed, fun _ => ?_, fun _ hp => (Option.some_ne_none _ hp.symm).elim,
    fun _ => h.bare (Or.inl (by simp))⟩
  rw [addObserver_registered]
  split
  case isTrue hi => exact ⟨fun _ => hi, fun _ => hon⟩
  case isFalse => exact ⟨fun _ => by simp, fun _ => hon⟩

theorem leave (h : c.Attached i (some false) k) : (c.removeObserver i).1.Attached i none k := by
  obtain ⟨hoff, -⟩ := h.turning false rfl
  exact ⟨h.kept, h.indexed, fun _ => by simp [hoff], fun _ hp => (Option.some_ne_none _ hp.symm).elim,
    fun _ => h.bare (Or.inl (by simp))⟩

/-- A call that does not concern the observer leaves it attached, and gives it no record but of whoever is observed. -/
theorem after (h : c.Attached i p k) (hc : c.Coherent) {computer : ComputerId} {call : ContextCall}
    (hs : call.spares i computer = true) :
    ∃ k', (c.after call).Attached i p k' ∧ (computer ∈ k'.computers → computer ∈ k.computers) := by
  have htell : ∀ other (told : Call), (∀ o, told = .observed o → other ≠ computer) →
      ∃ k', (c.broadcast other told).1.Attached i p k' ∧ (computer ∈ k'.computers → computer ∈ k.computers) := by
    intro other told hother
    refine ⟨_, h.broadcast hc other told, fun hm => ?_⟩
    split at hm
    · rcases h.indexed.mem_hear hm with hm | ⟨o, ho, rfl⟩
      · exact hm
      · exact absurd rfl (hother o ho)
    · exact hm
  cases call with
  | start j =>
    have hj : j ≠ i := by simpa [ContextCall.spares] using hs
    exact ⟨k, h.keep (c.start_getElem?_of_ne hj) (mem_start_registered hj), id⟩
  | stop j =>
    have hj : j ≠ i := by simpa [ContextCall.spares] using hs
    exact ⟨k, h.keep (c.stop_getElem?_of_ne hj) (mem_stop_registered hj), id⟩
  | add j =>
    have hj : j ≠ i := by simpa [ContextCall.spares] using hs
    exact ⟨k, h.keep (by simp [Context.after]) (mem_addObserver_registered hj), id⟩
  | remove j =>
    have hj : j ≠ i := by simpa [ContextCall.spares] using hs
    exact ⟨k, h.keep (by simp [Context.after]) (by simp [Context.after, Ne.symm hj]), id⟩
  | observe other o =>
    simp only [Context.after, hc.observe_eq]
    exact htell other (.observed o) fun o' _ => by simpa [ContextCall.spares] using hs
  | unload other => exact htell other .unloaded fun o ho => by cases ho
  | shutdown => cases hs

end Attached

end Context

end FairShare.Metrics
