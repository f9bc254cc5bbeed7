import FairShare.Proofs.Numbering

/-!
# Handles

Who registers a metric is handed the metric, and whoever asks for its name later is handed the same one. For a registry
only grows at its end: whatever is registered afterwards, or turned down, a metric keeps its number, and its name keeps
the metric.
-/

namespace FairShare.Metrics

variable {r r' : Registry}

namespace Registry

/-! ## The numbers, and what stands under them -/

/-- The numbers are the positions. -/
theorem Numbered.map_id (h : r.Numbered) : r.metrics.map (·.id) = List.range r.size := by
  refine List.ext_getElem (by rw [List.length_map, List.length_range, size]) fun i hi _ => ?_
  rw [List.getElem_map, List.getElem_range]
  rw [List.length_map] at hi
  exact h i _ (List.getElem?_eq_getElem hi)

theorem kept_beginning (before : List Metric) : Kept fun r => before <+: r.metrics := by
  intro r name kind m r' h hr
  obtain ⟨-, rfl, rfl⟩ := register_eq_ok_iff.1 hr
  exact h.trans (List.prefix_append ..)

/-- What is registered stays where it is. -/
theorem beginning_run (r : Registry) (calls : List RegistryCall) : r.metrics <+: (r.run calls).metrics :=
  (kept_beginning r.metrics).run (List.prefix_refl _) calls

/-! ## What is found under a name -/

theorem counter_eq_ok_iff {name : String} {m : Metric} :
    r.counter name = .ok m ↔ r.find? name = some m ∧ m.kind.isCounter = true := by
  rw [counter]
  cases r.find? name with
  | none => simp
  | some found =>
    dsimp only
    split
    case isTrue hkind =>
      rw [Except.ok.injEq, Option.some.injEq]
      exact ⟨fun h => ⟨h, h ▸ hkind⟩, And.left⟩
    case isFalse hkind =>
      rw [Option.some.injEq]
      exact ⟨nofun, fun h => absurd (h.1 ▸ h.2) hkind⟩

theorem event_eq_ok_iff {name : String} {m : Metric} :
    r.event name = .ok m ↔ r.find? name = some m ∧ m.kind.isCounter = false := by
  rw [event]
  cases r.find? name with
  | none => simp
  | some found =>
    dsimp only
    split
    case isTrue hkind =>
      rw [Option.some.injEq]
      exact ⟨nofun, fun h => by rw [h.1, h.2] at hkind; cases hkind⟩
    case isFalse hkind =>
      rw [Except.ok.injEq, Option.some.injEq]
      exact ⟨fun h => ⟨h, h ▸ Bool.eq_false_iff.2 hkind⟩, And.left⟩

/-- A counter is found if the name is that of a counter. -/
theorem Distinct.counter_iff (h : r.Distinct) {name : String} {m : Metric} :
    r.counter name = .ok m ↔ (m ∈ r.metrics ∧ m.name = name) ∧ m.kind.isCounter = true := by
  rw [counter_eq_ok_iff, h.find?_eq_some_iff]

/-- An event is found if the name is that of an event. -/
theorem Distinct.event_iff (h : r.Distinct) {name : String} {m : Metric} :
    r.event name = .ok m ↔ (m ∈ r.metrics ∧ m.name = name) ∧ m.kind.isCounter = false := by
  rw [event_eq_ok_iff, h.find?_eq_some_iff]

end Registry

theorem MetricKind.isCounter_eq_true_iff {kind : MetricKind} : kind.isCounter = true ↔ kind = .counter := by
  cases kind <;> simp [isCounter]

theorem MetricKind.isCounter_eq_false_iff {kind : MetricKind} :
    kind.isCounter = false ↔ ∃ unit, kind = .event unit := by
  cases kind <;> simp [isCounter]

/-! ## The standard metrics -/

/-- The handle of a standard metric. -/
def Standard.handle (ms : Standard) : StandardMetric → Metric
  | .computerTasks => ms.computerTasks
  | .serverTasks => ms.serverTasks
  | .allocation => ms.allocation
  | .peripheralOps => ms.peripheralOps
  | .fsOps => ms.fsOps
  | .coroutinesCreated => ms.coroutinesCreated
  | .coroutinesDisposed => ms.coroutinesDisposed

/-- These are handles of the standard metrics of a registry. -/
def Standard.HandedBy (ms : Standard) (r : Registry) : Prop :=
  ∀ s : StandardMetric, (ms.handle s ∈ r.metrics ∧ (ms.handle s).name = s.name) ∧ (ms.handle s).kind = s.kind

theorem StandardMetric.register_eq_ok {s : StandardMetric} {m : Metric} (h : s.register r = (.ok m, r')) :
    r'.metrics = r.metrics ++ [m] ∧ m.name = s.name ∧ m.kind = s.kind := by
  unfold StandardMetric.register at h
  cases hs : r.register s.name s.kind with
  | error e =>
    rw [hs] at h
    cases h
  | ok registered =>
    rw [hs] at h
    cases h
    obtain ⟨-, hm, hr⟩ := Registry.register_eq_ok_iff.1 hs
    exact ⟨congrArg (·.metrics) hr, congrArg (·.name) hm, congrArg (·.kind) hm⟩

/-- If a registration that begins with a standard metric is completed, the metric is put behind all others, and the rest
is completed. -/
theorem StandardMetric.bind_eq_ok {s : StandardMetric} {α : Type} {f : Metric → Registration α} {a : α}
    (h : (s.register >>= f).run.run r = (.ok a, r')) :
    ∃ m r₁, r₁.metrics = r.metrics ++ [m] ∧ (m.name = s.name ∧ m.kind = s.kind) ∧
      (f m).run.run r₁ = (.ok a, r') := by
  rw [ExceptT.run_bind, StateT.run_bind] at h
  cases hs : s.register.run.run r with
  | mk result r₁ =>
    rw [hs] at h
    cases result with
    | ok m =>
      obtain ⟨hmetrics, hm⟩ := register_eq_ok hs
      exact ⟨m, r₁, hmetrics, hm, h⟩
    | error e => cases h

/-- A registration of the standard metrics that was completed has put them behind all others. -/
theorem Registry.registerStandard_eq_ok {ms : Standard} (h : r.registerStandard.1 = .ok ms) :
    r.registerStandard.2.metrics = r.metrics ++ ms.toList ∧ ms.HandedBy r.registerStandard.2 := by
  have hrun : Standard.register.run.run r = (.ok ms, r.registerStandard.2) := Prod.ext h rfl
  unfold Standard.register at hrun
  obtain ⟨m₁, r₁, hr₁, hm₁, hrun⟩ := StandardMetric.bind_eq_ok hrun
  obtain ⟨m₂, r₂, hr₂, hm₂, hrun⟩ := StandardMetric.bind_eq_ok hrun
  obtain ⟨m₃, r₃, hr₃, hm₃, hrun⟩ := StandardMetric.bind_eq_ok hrun
  obtain ⟨m₄, r₄, hr₄, hm₄, hrun⟩ := StandardMetric.bind_eq_ok hrun
  obtain ⟨m₅, r₅, hr₅, hm₅, hrun⟩ := StandardMetric.bind_eq_ok hrun
  obtain ⟨m₆, r₆, hr₆, hm₆, hrun⟩ := StandardMetric.bind_eq_ok hrun
  obtain ⟨m₇, r₇, hr₇, hm₇, hrun⟩ := StandardMetric.bind_eq_ok hrun
  obtain ⟨hms, hlast⟩ := Prod.mk.inj hrun
  obtain rfl := Except.ok.inj hms
  rw [← hlast]
  have hall : r₇.metrics = r.metrics ++ [m₁, m₂, m₃, m₄, m₅, m₆, m₇] := by
    simp only [hr₇, hr₆, hr₅, hr₄, hr₃, hr₂, hr₁, List.append_assoc, List.cons_append, List.nil_append]
  have hmem : ∀ m ∈ [m₁, m₂, m₃, m₄, m₅, m₆, m₇], m ∈ r₇.metrics := fun m hm =>
    hall ▸ List.mem_append_right _ hm
  refine ⟨hall, fun s => ?_⟩
  cases s
  case computerTasks => exact ⟨⟨hmem m₁ (by simp), hm₁.1⟩, hm₁.2⟩
  case serverTasks => exact ⟨⟨hmem m₂ (by simp), hm₂.1⟩, hm₂.2⟩
  case allocation => exact ⟨⟨hmem m₃ (by simp), hm₃.1⟩, hm₃.2⟩
  case peripheralOps => exact ⟨⟨hmem m₄ (by simp), hm₄.1⟩, hm₄.2⟩
  case fsOps => exact ⟨⟨hmem m₅ (by simp), hm₅.1⟩, hm₅.2⟩
  case coroutinesCreated => exact ⟨⟨hmem m₆ (by simp), hm₆.1⟩, hm₆.2⟩
  case coroutinesDisposed => exact ⟨⟨hmem m₇ (by simp), hm₇.1⟩, hm₇.2⟩

theorem Standard.HandedBy.mono {ms : Standard} (h : ms.HandedBy r) (hle : r.metrics <+: r'.metrics) :
    ms.HandedBy r' :=
  fun s => ⟨⟨hle.subset (h s).1.1, (h s).1.2⟩, (h s).2⟩

/-- A standard metric is found by the handle that its registration gave out. -/
theorem Standard.HandedBy.lookup_metric {ms : Standard} (h : ms.HandedBy r) (hr : r.Distinct) (s : StandardMetric) :
    s.lookup r = .ok (ms.handle s) := by
  obtain ⟨hm, hkind⟩ := h s
  unfold StandardMetric.lookup
  split
  case isTrue hs => exact hr.counter_iff.2 ⟨hm, hkind ▸ hs⟩
  case isFalse hs => exact hr.event_iff.2 ⟨hm, hkind ▸ Bool.eq_false_iff.2 hs⟩

theorem Standard.HandedBy.lookup {ms : Standard} (h : ms.HandedBy r) (hr : r.Distinct) :
    Standard.lookup r = .ok ms := by
  unfold Standard.lookup
  simp only [h.lookup_metric hr]
  rfl

namespace Registry

/-! ## What a registry tells and keeps -/

/-- Numbers and names lead to the metrics that were registered, and so do the handles that were given out. -/
structure Serves (r : Registry) : Prop where
  /-- The numbers are the positions. -/
  numbers : r.metrics.map (·.id) = List.range r.size
  names : (r.metrics.map (·.name)).Nodup
  find : ∀ name m, r.find? name = some m ↔ m ∈ r.metrics ∧ m.name = name
  /-- The number of what is found leads back to it. -/
  back : ∀ name m, r.find? name = some m → r.get? m.id = some m
  counter : ∀ name m, r.counter name = .ok m ↔ (m ∈ r.metrics ∧ m.name = name) ∧ m.kind = .counter
  event : ∀ name m, r.event name = .ok m ↔ (m ∈ r.metrics ∧ m.name = name) ∧ ∃ unit, m.kind = .event unit
  /-- A name that is taken, by a metric of whichever kind, is turned down, and nothing changes. -/
  refuses : ∀ name kind, (∃ m ∈ r.metrics, m.name = name) →
    r.register name kind = .error (.duplicateMetric name) ∧ r.after (.register name kind) = r
  /-- Any other name is registered behind those that were. -/
  accepts : ∀ name kind, (∀ m ∈ r.metrics, m.name ≠ name) → ∃ r',
    r.register name kind = .ok (⟨r.size, name, kind⟩, r') ∧ r.after (.register name kind) = r' ∧
      r'.metrics = r.metrics ++ [⟨r.size, name, kind⟩]
  /-- The standard metrics are found by the handles that their registration gave out, whatever is registered later. -/
  lasts : ∀ ms, r.registerStandard.1 = .ok ms →
    r.registerStandard.2.metrics = r.metrics ++ ms.toList ∧
      ∀ later, Standard.lookup (r.registerStandard.2.run later) = .ok ms

theorem Distinct.number?_isSome_iff (h : r.Distinct) {name : String} :
    (r.number? name).isSome = true ↔ ∃ m ∈ r.metrics, m.name = name := by
  rw [← Option.ne_none_iff_isSome, ne_eq, h.number?_eq_none_iff]
  push Not
  rfl

theorem Distinct.serves (hnames : r.Distinct) (hnumbers : r.Numbered) : r.Serves := by
  constructor
  case numbers => exact hnumbers.map_id
  case names => exact hnames.names
  case find => exact fun _ _ => hnames.find?_eq_some_iff
  case back => exact fun _ _ hfind => hnumbers.get?_id (hnames.find?_eq_some_iff.1 hfind).1
  case counter =>
    intro name m
    rw [hnames.counter_iff, MetricKind.isCounter_eq_true_iff]
  case event =>
    intro name m
    rw [hnames.event_iff, MetricKind.isCounter_eq_false_iff]
  case refuses =>
    intro name kind htaken
    have herror : r.register name kind = .error (.duplicateMetric name) := if_pos (hnames.number?_isSome_iff.2 htaken)
    exact ⟨herror, by rw [Registry.after, herror]⟩
  case accepts =>
    intro name kind hfree
    have hok : r.register name kind = .ok (⟨r.size, name, kind⟩,
        ⟨r.metrics ++ [⟨r.size, name, kind⟩], (name, r.size) :: r.numbers⟩) :=
      register_eq_ok_iff.2 ⟨hnames.number?_eq_none_iff.2 hfree, rfl, rfl⟩
    exact ⟨_, hok, by rw [Registry.after, hok], rfl⟩
  case lasts =>
    intro ms hms
    obtain ⟨hmetrics, hhanded⟩ := registerStandard_eq_ok hms
    refine ⟨hmetrics, fun later => ?_⟩
    exact (hhanded.mono (beginning_run _ later)).lookup ((kept_distinct.registerStandard hnames).run later)

/-- Each standard metric of a new registry stands where a registration of all would have put it. -/
theorem standard_eq : Registry.standard = ({} : Registry).registerStandard.2 :=
  Registry.ext (by decide +kernel) (by decide +kernel)

/-- However a registry came about from an empty one or from that of the standard metrics, it tells its metrics by number
and by name, and what it has given out lasts. -/
theorem run_serves (calls : List RegistryCall) :
    (Registry.run {} calls).Serves ∧ (Registry.run .standard calls).Serves := by
  have hstandard : Registry.standard.Distinct ∧ Registry.standard.Numbered := by
    rw [standard_eq]
    exact ⟨kept_distinct.registerStandard distinct_empty, kept_numbered.registerStandard numbered_empty⟩
  exact ⟨(distinct_empty.run calls).serves (numbered_empty.run calls),
    (hstandard.1.run calls).serves (hstandard.2.run calls)⟩

-- a registration of the standard metrics stops at the name that is taken, and those before it stay
example : (Registry.run {} [.register "allocation" .counter, .registerStandard, .register "depth" .counter]).metrics =
    [⟨0, "allocation", .counter⟩, ⟨1, "computer_tasks", .event .time⟩, ⟨2, "server_tasks", .event .time⟩,
      ⟨3, "depth", .counter⟩] := by
  decide +kernel

end Registry

end FairShare.Metrics
