import FairShare.Metrics.Record
import FairShare.Metrics.Standard
import Mathlib.Data.List.Nodup

/-!
# The numbers and names of metrics

However a registry came about, each of its metrics stands at the position that is its number, no two of them have one
name, and the table of the names tells the position of each. So a number means one metric of it, and a name does. What is
recorded under a number was observed of that metric.
-/

namespace FairShare.Metrics

variable {r : Registry}

namespace Registry

/-- A metric is registered behind all others, if its name is free. -/
theorem register_eq_ok_iff {name : String} {kind : MetricKind} {m : Metric} {r' : Registry} :
    r.register name kind = .ok (m, r') ↔ r.number? name = none ∧ m = ⟨r.size, name, kind⟩ ∧
      r' = ⟨r.metrics ++ [m], (name, r.size) :: r.numbers⟩ := by
  unfold Registry.register
  cases hnumber : r.number? name with
  | some taken => simp
  | none =>
    simp only [Option.isSome_none, Bool.false_eq_true, if_false, push, Except.ok.injEq, Prod.mk.injEq, true_and]
    constructor
    · rintro ⟨rfl, rfl⟩
      exact ⟨rfl, rfl⟩
    · rintro ⟨rfl, rfl⟩
      exact ⟨rfl, rfl⟩

/-! ## What registrations keep -/

/-- Whatever metric is registered, the property stays. -/
def Kept (P : Registry → Prop) : Prop :=
  ∀ r name kind m r', P r → Registry.register r name kind = .ok (m, r') → P r'

/-- A registration that keeps a property. -/
def Keeps (P : Registry → Prop) {α : Type} (x : Registration α) : Prop := ∀ r, P r → P (x.run.run r).2

section Kept

variable {P : Registry → Prop}

theorem keeps_pure {α : Type} (a : α) : Keeps P (pure a : Registration α) := fun _ h => h

theorem Keeps.bind {α β : Type} {x : Registration α} {f : α → Registration β} (hx : Keeps P x)
    (hf : ∀ a, Keeps P (f a)) : Keeps P (x >>= f) := by
  intro r h
  have hr := hx r h
  rw [ExceptT.run_bind, StateT.run_bind]
  cases hres : x.run.run r with
  | mk result r' =>
    rw [hres] at hr
    cases result with
    | ok a => exact hf a r' hr
    | error e => exact hr

theorem Kept.keeps_register (hP : Kept P) (s : StandardMetric) : Keeps P s.register := by
  intro r h
  show P (s.register r).2
  unfold StandardMetric.register
  cases hs : r.register s.name s.kind with
  | ok registered => exact hP r _ _ _ _ h hs
  | error e => exact h

theorem Kept.registerStandard (hP : Kept P) (h : P r) : P r.registerStandard.2 := by
  have hall : Keeps P Standard.register := by
    unfold Standard.register
    iterate 7 refine Keeps.bind (hP.keeps_register _) fun _ => ?_
    exact keeps_pure _
  exact hall r h

theorem Kept.after (hP : Kept P) (h : P r) (call : RegistryCall) : P (r.after call) := by
  cases call with
  | register name kind =>
    simp only [Registry.after]
    split
    case h_1 hr => exact hP r _ _ _ _ h hr
    case h_2 => exact h
  | registerStandard => exact hP.registerStandard h

/-- What every registration keeps, every run keeps. -/
theorem Kept.run (hP : Kept P) (h : P r) (calls : List RegistryCall) : P (r.run calls) := by
  induction calls generalizing r with
  | nil => exact h
  | cons call calls ih => exact ih (hP.after h call)

end Kept

/-! ## Numbers -/

/-- Each metric stands at the position that is its number. -/
def Numbered (r : Registry) : Prop := ∀ i m, r.get? i = some m → m.id = i

theorem numbered_empty : ({} : Registry).Numbered := by
  intro i m h
  simp [get?] at h

theorem kept_numbered : Kept Numbered := by
  intro r name kind m r' h hr
  obtain ⟨-, rfl, rfl⟩ := register_eq_ok_iff.1 hr
  intro i m' hm'
  rw [get?, List.getElem?_append] at hm'
  split at hm'
  case isTrue => exact h i m' hm'
  case isFalse hle =>
    rw [List.getElem?_singleton] at hm'
    split at hm'
    case isTrue =>
      obtain rfl := Option.some.inj hm'
      show r.metrics.length = i
      omega
    case isFalse => cases hm'

theorem Numbered.run (h : r.Numbered) (calls : List RegistryCall) : (r.run calls).Numbered :=
  kept_numbered.run h calls

theorem Numbered.get?_id (h : r.Numbered) {m : Metric} (hm : m ∈ r.metrics) : r.get? m.id = some m := by
  obtain ⟨i, hi⟩ := List.mem_iff_getElem?.1 hm
  rw [h i m hi]
  exact hi

/-- Two metrics with one number are one metric. -/
theorem Numbered.eq_of_id (h : r.Numbered) {m m' : Metric} (hm : m ∈ r.metrics) (hm' : m' ∈ r.metrics)
    (hid : m.id = m'.id) : m = m' := by
  have hget := h.get?_id hm
  rw [hid, h.get?_id hm'] at hget
  exact (Option.some.inj hget).symm

/-- The numbers ascend in the order of registration. -/
theorem Numbered.ascending (h : r.Numbered) : r.metrics.Pairwise (·.id < ·.id) := by
  rw [List.pairwise_iff_getElem]
  intro i j hi hj hij
  rw [h i _ (List.getElem?_eq_getElem hi), h j _ (List.getElem?_eq_getElem hj)]
  exact hij

/-! ## Names -/

/-- No two metrics have one name, and the table of the names has each of them with the position of its metric. -/
structure Distinct (r : Registry) : Prop where
  names : (r.metrics.map (·.name)).Nodup
  number?_eq_some_iff : ∀ name i, r.number? name = some i ↔ ∃ m, r.get? i = some m ∧ m.name = name

theorem distinct_empty : ({} : Registry).Distinct := by
  refine ⟨List.nodup_nil, fun name i => ?_⟩
  simp [number?, get?]

theorem Distinct.number?_eq_none_iff (h : r.Distinct) {name : String} :
    r.number? name = none ↔ ∀ m ∈ r.metrics, m.name ≠ name := by
  constructor
  · rintro hnone m hm rfl
    obtain ⟨i, hi⟩ := List.mem_iff_getElem?.1 hm
    rw [(h.number?_eq_some_iff m.name i).2 ⟨m, hi, rfl⟩] at hnone
    cases hnone
  · intro hall
    cases hnumber : r.number? name with
    | none => rfl
    | some i =>
      obtain ⟨m, hm, hname⟩ := (h.number?_eq_some_iff name i).1 hnumber
      exact absurd hname (hall m (List.mem_of_getElem? hm))

theorem kept_distinct : Kept Distinct := by
  intro r name kind m r' h hr
  obtain ⟨hfree, rfl, rfl⟩ := register_eq_ok_iff.1 hr
  have hnew := h.number?_eq_none_iff.1 hfree
  constructor
  case names =>
    rw [List.map_append, List.map_singleton, ← List.concat_eq_append]
    refine h.names.concat fun hmem => ?_
    obtain ⟨m, hm, hname⟩ := List.mem_map.1 hmem
    exact hnew m hm hname
  case number?_eq_some_iff =>
    intro other i
    -- the new metric stands behind all others, which keep their places
    have hget : ∀ m', r.metrics[i]? = some m' → i < r.metrics.length := fun m' hm' =>
      (List.getElem?_eq_some_iff.1 hm').1
    rw [number?, List.lookup_cons, get?]
    by_cases hother : other = name
    · subst hother
      simp only [beq_self_eq_true, Option.some.injEq]
      constructor
      · rintro rfl
        exact ⟨_, List.getElem?_concat_length .., rfl⟩
      · rintro ⟨m', hm', hname⟩
        rw [List.getElem?_append] at hm'
        split at hm'
        case isTrue => exact absurd hname (hnew m' (List.mem_of_getElem? hm'))
        case isFalse hle =>
          have hlt := (List.getElem?_eq_some_iff.1 hm').1
          simp only [List.length_singleton] at hlt
          show r.metrics.length = i
          omega
    · rw [beq_false_of_ne hother]
      refine (h.number?_eq_some_iff other i).trans ⟨?_, ?_⟩
      · rintro ⟨m', hm', hname⟩
        exact ⟨m', (List.getElem?_append_left (hget m' hm')).trans hm', hname⟩
      · rintro ⟨m', hm', rfl⟩
        rw [List.getElem?_append] at hm'
        split at hm'
        case isTrue => exact ⟨m', hm', rfl⟩
        case isFalse =>
          obtain rfl := List.mem_singleton.1 (List.mem_of_getElem? hm')
          exact absurd rfl hother

theorem Distinct.run (h : r.Distinct) (calls : List RegistryCall) : (r.run calls).Distinct :=
  kept_distinct.run h calls

/-- Who is found by a name is the one that has it. -/
theorem Distinct.find?_eq_some_iff (h : r.Distinct) {name : String} {m : Metric} :
    r.find? name = some m ↔ m ∈ r.metrics ∧ m.name = name := by
  constructor
  · intro hfind
    obtain ⟨i, hi, hm⟩ := Option.bind_eq_some_iff.1 hfind
    obtain ⟨m', hm', hname⟩ := (h.number?_eq_some_iff name i).1 hi
    obtain rfl := Option.some.inj (hm'.symm.trans hm)
    exact ⟨List.mem_of_getElem? hm, hname⟩
  · rintro ⟨hm, hname⟩
    obtain ⟨i, hi⟩ := List.mem_iff_getElem?.1 hm
    exact Option.bind_eq_some_iff.2 ⟨i, (h.number?_eq_some_iff name i).2 ⟨m, hi, hname⟩, hi⟩

theorem Distinct.find?_eq_none_iff (h : r.Distinct) {name : String} :
    r.find? name = none ↔ ∀ m ∈ r.metrics, m.name ≠ name := by
  rw [Option.eq_none_iff_forall_ne_some]
  simp only [ne_eq, h.find?_eq_some_iff, not_and]

end Registry

/-- What was observed is a metric of a registry, a counter as a counter and an event as an event. -/
def Observation.Of (r : Registry) (o : Observation) : Prop :=
  o.metric ∈ r.metrics ∧ (o.metric.kind.isCounter = true ↔ o = .counter o.metric)

instance (r : Registry) (o : Observation) : Decidable (o.Of r) :=
  inferInstanceAs (Decidable (_ ∧ (_ ↔ _)))

end FairShare.Metrics
