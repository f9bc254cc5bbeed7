import FairShare.Metrics.Run

/-!
# Registration

The registered observers are always distinct, and observations are passed on exactly when there are any. So
whatever is passed on reaches each registered observer once, and no other.
-/

namespace FairShare.Metrics

namespace Context

theorem set_eq_modify {α : Type} {l : List α} {i : Nat} {x : α} (h : l[i]? = some x) (f : α → α) :
    l.set i (f x) = l.modify i f := by
  obtain ⟨hi, rfl⟩ := List.getElem?_eq_some_iff.1 h
  refine List.ext_getElem? fun j => ?_
  rw [List.getElem?_set, List.getElem?_modify]
  by_cases hij : i = j
  · subst hij
    simp [hi]
  · simp [hij]

/-- The registered observers are distinct, and the mark says whether there are any. -/
structure Coherent (c : Context) : Prop where
  distinct : c.registered.Nodup
  marked : c.enabled = !c.registered.isEmpty

/-! ## What is passed on -/

theorem tell_observers (computer : ComputerId) (call : Call) (observers : List Observer) (i : Nat) :
    (tell computer call observers i).1 = observers.modify i (·.hear computer call) := by
  unfold tell
  split
  case h_1 hi => exact (List.modify_eq_self (List.getElem?_eq_none_iff.1 hi)).symm
  case h_2 o hi => exact set_eq_modify hi (·.hear computer call)

/-- Everybody who is told something hears it once. -/
theorem tellAll_getElem? (computer : ComputerId) (call : Call) {is : List Nat} (h : is.Nodup)
    (observers : List Observer) (j : Nat) :
    (tellAll computer call observers is).1[j]? =
      if j ∈ is then observers[j]?.map (·.hear computer call) else observers[j]? := by
  induction is generalizing observers with
  | nil => simp [tellAll]
  | cons i is ih =>
    obtain ⟨hi, hd⟩ := List.nodup_cons.1 h
    show (tellAll computer call (tell computer call observers i).1 is).1[j]? = _
    rw [ih hd, tell_observers, List.getElem?_modify]
    by_cases hij : i = j
    · subst hij
      simp [hi]
    · simp [hij, Ne.symm hij]

variable {c : Context}

@[simp] theorem broadcast_registered (c : Context) (computer : ComputerId) (call : Call) :
    (c.broadcast computer call).1.registered = c.registered := rfl

@[simp] theorem broadcast_enabled (c : Context) (computer : ComputerId) (call : Call) :
    (c.broadcast computer call).1.enabled = c.enabled := rfl

theorem Coherent.broadcast_getElem? (h : c.Coherent) (computer : ComputerId) (call : Call) (j : Nat) :
    (c.broadcast computer call).1.observers[j]? =
      if j ∈ c.registered then c.observers[j]?.map (·.hear computer call) else c.observers[j]? :=
  tellAll_getElem? computer call h.distinct c.observers j

/-- An observation is passed on as if nobody looked at the mark. -/
theorem Coherent.observe_eq (h : c.Coherent) (computer : ComputerId) (o : Observation) :
    (c.observe computer o).1 = (c.broadcast computer (.observed o)).1 := by
  unfold observe
  split
  case isTrue => rfl
  case isFalse hoff =>
    have hnone : c.registered = [] := by simpa [h.marked] using hoff
    simp [broadcast, hnone, tellAll, Context.ext_iff]

/-! ## What the calls leave -/

theorem addObserver_registered (c : Context) (i : Nat) :
    (c.addObserver i).1.registered = if i ∈ c.registered then c.registered else c.registered ++ [i] := by
  unfold addObserver
  by_cases h : i ∈ c.registered <;> simp [h]

@[simp] theorem addObserver_observers (c : Context) (i : Nat) : (c.addObserver i).1.observers = c.observers := by
  unfold addObserver
  split <;> rfl

@[simp] theorem removeObserver_registered (c : Context) (i : Nat) :
    (c.removeObserver i).1.registered = c.registered.filter (· != i) := rfl

@[simp] theorem removeObserver_observers (c : Context) (i : Nat) :
    (c.removeObserver i).1.observers = c.observers := rfl

@[simp] theorem setTracking_registered (c : Context) (i : Nat) (tracking : Bool) :
    (c.setTracking i tracking).1.registered = c.registered := by
  unfold setTracking
  split <;> rfl

@[simp] theorem setTracking_enabled (c : Context) (i : Nat) (tracking : Bool) :
    (c.setTracking i tracking).1.enabled = c.enabled := by
  unfold setTracking
  split <;> rfl

theorem setTracking_observers (c : Context) (i : Nat) (tracking : Bool) :
    (c.setTracking i tracking).1.observers = c.observers.modify i (·.setTracking tracking) := by
  unfold setTracking
  split
  case h_1 hi => exact (List.modify_eq_self (List.getElem?_eq_none_iff.1 hi)).symm
  case h_2 o hi => exact set_eq_modify hi (·.setTracking tracking)

theorem start_observers (c : Context) (i : Nat) :
    (c.start i).1.observers = (c.setTracking i true).1.observers := by
  unfold start
  split <;> rename_i h <;> simp [h]

theorem stop_observers (c : Context) (i : Nat) :
    (c.stop i).1.observers = (c.setTracking i false).1.observers := by
  unfold stop
  split <;> rename_i h <;> simp [h]

theorem Coherent.addObserver (h : c.Coherent) (i : Nat) : (c.addObserver i).1.Coherent := by
  unfold Context.addObserver
  split
  case isTrue => exact h
  case isFalse hi =>
    constructor
    case distinct =>
      have hnew : i ∉ c.registered := by simpa using hi
      exact List.nodup_append.2 ⟨h.distinct, by simp, by grind⟩
    case marked => simp

theorem Coherent.removeObserver (h : c.Coherent) (i : Nat) : (c.removeObserver i).1.Coherent :=
  ⟨h.distinct.filter _, rfl⟩

theorem Coherent.setTracking (h : c.Coherent) (i : Nat) (tracking : Bool) :
    (c.setTracking i tracking).1.Coherent :=
  ⟨by simpa using h.distinct, by simpa using h.marked⟩

theorem Coherent.broadcast (h : c.Coherent) (computer : ComputerId) (call : Call) :
    (c.broadcast computer call).1.Coherent := ⟨h.distinct, h.marked⟩

theorem Coherent.after (h : c.Coherent) (call : ContextCall) : (c.after call).Coherent := by
  cases call with
  | start i =>
    simp only [Context.after, Context.start]
    have hs := h.setTracking i true
    split <;> rename_i heq <;> rw [heq] at hs
    · exact hs
    · exact hs.addObserver i
  | stop i =>
    simp only [Context.after, Context.stop]
    have hs := h.setTracking i false
    split <;> rename_i heq <;> rw [heq] at hs
    · exact hs
    · exact hs.removeObserver i
  | add i => exact h.addObserver i
  | remove i => exact h.removeObserver i
  | observe computer o =>
    simp only [Context.after, h.observe_eq]
    exact h.broadcast ..
  | unload computer => exact h.broadcast ..
  | shutdown => exact ⟨List.nodup_nil, rfl⟩

theorem Coherent.run (h : c.Coherent) (calls : List ContextCall) : (c.run calls).Coherent := by
  induction calls generalizing c with
  | nil => exact h
  | cons call calls ih => exact ih (h.after call)

theorem ofRegistry_eq {r : Registry} (h : ofRegistry r = .ok c) : ∃ standard, c = { registry := r, standard } := by
  unfold ofRegistry at h
  cases hs : Standard.lookup r with
  | error e => simp [hs, Except.map] at h
  | ok standard =>
    simp only [hs, Except.map, Except.ok.injEq] at h
    exact ⟨standard, h.symm⟩

theorem ofRegistry_of_lookup {r : Registry} {standard : Standard}
    (h : (Standard.lookup r).toOption = some standard) : ofRegistry r = .ok { registry := r, standard } := by
  unfold ofRegistry
  cases hs : Standard.lookup r with
  | error e => simp [hs, Except.toOption] at h
  | ok found =>
    obtain rfl : found = standard := by simpa [hs, Except.toOption] using h
    rfl

/-- In a new context nobody is registered. -/
theorem coherent_of_ofRegistry {r : Registry} (h : ofRegistry r = .ok c) : c.Coherent := by
  obtain ⟨standard, rfl⟩ := ofRegistry_eq h
  exact ⟨List.nodup_nil, rfl⟩

end Context

end FairShare.Metrics
