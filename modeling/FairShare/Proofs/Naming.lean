import FairShare.Proofs.Numbering

/-!
# The names of fields

The suffix of an aggregate has no underscore in it, so a name that is taken apart at its last underscore comes apart
where it was put together. What is read is therefore always a field of the name it was read from, and every name of a
field is read. But one name can stand for two fields: for an aggregate of an event, and for a metric that was registered
under all of it. Then it is the metric that is read.
-/

namespace FairShare.Metrics

variable {r : Registry}

theorem Aggregate.ofSuffix?_eq_some_iff {s : String} {a : Aggregate} :
    ofSuffix? s = some a ↔ a ≠ .none ∧ a.suffix = s := by
  constructor
  · intro h
    unfold ofSuffix? at h
    split at h
    case isTrue hs => cases h; exact ⟨by decide, hs.symm⟩
    case isFalse =>
      split at h
      case isTrue hs => cases h; exact ⟨by decide, hs.symm⟩
      case isFalse =>
        split at h
        case isTrue hs => cases h; exact ⟨by decide, hs.symm⟩
        case isFalse => cases h
  · rintro ⟨ha, rfl⟩
    cases a with
    | none => exact absurd rfl ha
    | _ => rfl

theorem Aggregate.underscore_not_mem_suffix (a : Aggregate) : '_' ∉ a.suffix.toList := by
  cases a <;> decide

namespace Field

variable {f g : Field} {s : String}

/-! ## Names are taken apart -/

theorem nameOf_of_ne_none {a : Aggregate} (ha : a ≠ .none) (base : String) :
    nameOf base a = base ++ "_" ++ a.suffix := by
  cases a with
  | none => exact absurd rfl ha
  | _ => rfl

theorem name_of_none (ha : f.aggregate = .none) : f.name = f.metric.name := by
  rw [name, ha, nameOf]

theorem splitLast?_append {suffix : String} (h : '_' ∉ suffix.toList) (base : String) :
    splitLast? (base ++ "_" ++ suffix) = some (base, suffix) := by
  have hbackwards : (base ++ "_" ++ suffix).toList.reverse = suffix.toList.reverse ++ '_' :: base.toList.reverse := by
    simp [String.toList_append]
  have hsuffix : ∀ c ∈ suffix.toList.reverse, (c != '_') = true := by
    intro c hc
    rw [List.mem_reverse] at hc
    exact bne_iff_ne.2 fun heq => h (heq ▸ hc)
  simp only [splitLast?, hbackwards, List.dropWhile_append_of_pos hsuffix, List.takeWhile_append_of_pos hsuffix]
  simp

theorem eq_of_splitLast? {base suffix : String} (h : splitLast? s = some (base, suffix)) :
    s = base ++ "_" ++ suffix := by
  simp only [splitLast?] at h
  have hsplit : s.toList.reverse.takeWhile (· != '_') ++ s.toList.reverse.dropWhile (· != '_') = s.toList.reverse :=
    List.takeWhile_append_dropWhile
  have hhead := List.head?_dropWhile_not (· != '_') s.toList.reverse
  generalize s.toList.reverse.takeWhile (· != '_') = behind at h hsplit
  cases hdrop : s.toList.reverse.dropWhile (· != '_') with
  | nil => simp [hdrop] at h
  | cons c before =>
    rw [hdrop] at h hsplit hhead
    obtain rfl : c = '_' := by simpa using hhead
    obtain ⟨rfl, rfl⟩ : String.ofList before.reverse = base ∧ String.ofList behind.reverse = suffix := by
      simpa using h
    have hs := congrArg List.reverse hsplit
    rw [List.reverse_reverse] at hs
    rw [← String.toList_inj, ← hs]
    simp [String.toList_append]

/-- Two aggregates of one name are one. -/
theorem nameOf_inj {a a' : Aggregate} (ha : a ≠ .none) (ha' : a' ≠ .none) {base base' : String}
    (h : nameOf base a = nameOf base' a') : base = base' ∧ a = a' := by
  have hsplit := congrArg splitLast? h
  rw [nameOf_of_ne_none ha, nameOf_of_ne_none ha', splitLast?_append a.underscore_not_mem_suffix,
    splitLast?_append a'.underscore_not_mem_suffix] at hsplit
  obtain ⟨hbase, hsuffix⟩ := Prod.mk.inj (Option.some.inj hsplit)
  have hof := Aggregate.ofSuffix?_eq_some_iff.2 ⟨ha, hsuffix⟩
  rw [Aggregate.ofSuffix?_eq_some_iff.2 ⟨ha', rfl⟩] at hof
  exact ⟨hbase, (Option.some.inj hof).symm⟩

/-! ## The fields there are -/

theorem create_eq_ok_iff {m : Metric} {a : Aggregate} :
    create m a = .ok f ↔ f = ⟨m, a⟩ ∧ (m.kind.isCounter = true → a = .none) := by
  unfold create
  split
  case isTrue h =>
    obtain ⟨hcounter, ha⟩ : m.kind.isCounter = true ∧ a ≠ .none := by simpa using h
    simp [hcounter, ha]
  case isFalse h =>
    have ha : m.kind.isCounter = true → a = .none := by simpa using h
    rw [Except.ok.injEq, and_iff_left ha, eq_comm]

theorem mem_ofMetric {m : Metric} : f ∈ ofMetric m ↔ f.metric = m ∧ create f.metric f.aggregate = .ok f := by
  rw [create_eq_ok_iff, ofMetric]
  obtain ⟨m', a⟩ := f
  cases hkind : m.kind with
  | counter =>
    simp only [List.mem_singleton, mk.injEq, true_and, and_congr_right_iff]
    rintro rfl
    simp [hkind, MetricKind.isCounter]
  | event unit =>
    simp only [List.mem_map, mk.injEq, true_and]
    constructor
    · rintro ⟨a', -, rfl, rfl⟩
      simp [hkind, MetricKind.isCounter]
    · rintro ⟨rfl, -⟩
      exact ⟨a, by cases a <;> decide, rfl, rfl⟩

theorem mem_all : f ∈ all r ↔ f.metric ∈ r.metrics ∧ create f.metric f.aggregate = .ok f := by
  simp only [all, List.mem_flatMap, mem_ofMetric]
  constructor
  · rintro ⟨m, hm, rfl, hcreate⟩
    exact ⟨hm, hcreate⟩
  · rintro ⟨hm, hcreate⟩
    exact ⟨f.metric, hm, rfl, hcreate⟩

theorem plain_mem_all {m : Metric} (hm : m ∈ r.metrics) : ⟨m, .none⟩ ∈ all r :=
  mem_all.2 ⟨hm, create_eq_ok_iff.2 ⟨rfl, fun _ => rfl⟩⟩

theorem nodup_ofMetric (m : Metric) : (ofMetric m).Nodup := by
  unfold ofMetric
  cases m.kind with
  | counter => exact List.nodup_singleton _
  | event unit => exact List.Nodup.map (fun a a' h => (mk.inj h).2) (by decide)

/-- The fields of a registry: what is accepted of its metrics, each once, in the order of their numbers. -/
structure Lists (r : Registry) (fields : List Field) : Prop where
  accepted : ∀ f, f ∈ fields ↔ f.metric ∈ r.metrics ∧ create f.metric f.aggregate = .ok f
  counter : ∀ m ∈ r.metrics, m.kind.isCounter = true → ∀ a, ⟨m, a⟩ ∈ fields ↔ a = .none
  event : ∀ m ∈ r.metrics, m.kind.isCounter = false → ∀ a, ⟨m, a⟩ ∈ fields
  distinct : fields.Nodup
  ordered : fields.Pairwise (·.metric.id ≤ ·.metric.id)

theorem lists_all (hr : r.Numbered) : Lists r (all r) := by
  have hfields : ∀ m ∈ r.metrics, ∀ a, (⟨m, a⟩ ∈ all r ↔ (m.kind.isCounter = true → a = .none)) := by
    intro m hm a
    simp [mem_all, create_eq_ok_iff, hm]
  constructor
  case accepted => exact fun f => mem_all
  case counter =>
    intro m hm hcounter a
    simp [hfields m hm, hcounter]
  case event =>
    intro m hm hevent a
    simp [hfields m hm, hevent]
  case distinct =>
    refine List.nodup_flatMap.2 ⟨fun m _ => nodup_ofMetric m, hr.ascending.imp fun hlt f hf hf' => ?_⟩
    have hm := (mem_ofMetric.1 hf).1
    have hm' := (mem_ofMetric.1 hf').1
    rw [← hm, ← hm'] at hlt
    exact Nat.lt_irrefl _ hlt
  case ordered =>
    refine List.pairwise_flatMap.2 ⟨fun m _ => ?_, hr.ascending.imp fun hlt f hf g hg => ?_⟩
    · refine List.pairwise_of_forall_mem_list fun f hf g hg => ?_
      have hsame : f.metric = g.metric := (mem_ofMetric.1 hf).1.trans (mem_ofMetric.1 hg).1.symm
      exact Nat.le_of_eq (congrArg Metric.id hsame)
    · rw [(mem_ofMetric.1 hf).1, (mem_ofMetric.1 hg).1]
      exact Nat.le_of_lt hlt

/-! ## What is read -/

/-- Reading gives the field of this name that reads a metric plainly, and without such a metric the other one. -/
theorem parse_eq_ok_iff (hr : r.Distinct) :
    parse r s = .ok f ↔ f.name = s ∧ f ∈ all r ∧ (f.aggregate = .none ∨ r.find? s = none) := by
  rw [mem_all]
  unfold parse
  cases hfind : r.find? s with
  | some m =>
    obtain ⟨hm, hname⟩ := hr.find?_eq_some_iff.1 hfind
    show create m .none = .ok f ↔ _
    constructor
    · intro h
      obtain ⟨rfl, -⟩ := create_eq_ok_iff.1 h
      exact ⟨hname, ⟨hm, h⟩, Or.inl rfl⟩
    · rintro ⟨hs, ⟨hmem, -⟩, ha⟩
      have ha : f.aggregate = .none := ha.resolve_right (Option.some_ne_none m)
      rw [name_of_none ha] at hs
      -- the metric of the field is the one that has the name
      have hsame := hr.find?_eq_some_iff.2 ⟨hmem, hs⟩
      rw [hfind] at hsame
      exact create_eq_ok_iff.2 ⟨Field.ext (Option.some.inj hsame).symm ha, fun _ => rfl⟩
  | none =>
    simp only [or_true, and_true]
    constructor
    · intro h
      cases hsplit : splitLast? s with
      | none => simp [hsplit] at h
      | some parts =>
        obtain ⟨base, suffix⟩ := parts
        simp only [hsplit] at h
        cases hof : Aggregate.ofSuffix? suffix with
        | none => simp [hof] at h
        | some a =>
          obtain ⟨ha, rfl⟩ := Aggregate.ofSuffix?_eq_some_iff.1 hof
          simp only [hof] at h
          cases hbase : r.find? base with
          | none => simp [hbase] at h
          | some m =>
            obtain ⟨hm, rfl⟩ := hr.find?_eq_some_iff.1 hbase
            simp only [hbase] at h
            obtain ⟨rfl, -⟩ := create_eq_ok_iff.1 h
            exact ⟨(nameOf_of_ne_none ha m.name).trans (eq_of_splitLast? hsplit).symm, hm, h⟩
    · rintro ⟨rfl, hm, hcreate⟩
      have ha : f.aggregate ≠ .none := by
        intro ha
        exact hr.find?_eq_none_iff.1 hfind f.metric hm (name_of_none ha).symm
      rw [name, nameOf_of_ne_none ha, splitLast?_append f.aggregate.underscore_not_mem_suffix]
      simp only [Aggregate.ofSuffix?_eq_some_iff.2 ⟨ha, rfl⟩, hr.find?_eq_some_iff.2 ⟨hm, rfl⟩]
      exact hcreate

theorem parse_metric_name (hr : r.Distinct) {m : Metric} (hm : m ∈ r.metrics) : parse r m.name = .ok ⟨m, .none⟩ :=
  (parse_eq_ok_iff hr).2 ⟨rfl, plain_mem_all hm, Or.inl rfl⟩

/-- Exactly the names of fields are read, and each as a field of that name. -/
theorem run_reads (calls : List RegistryCall) :
    let r := Registry.run {} calls
    (∀ s, (∃ f, parse r s = .ok f) ↔ ∃ f ∈ all r, f.name = s) ∧
      (∀ s f, parse r s = .ok f → f ∈ all r ∧ f.name = s) ∧ Lists r (all r) := by
  intro r
  have hr : r.Distinct := Registry.distinct_empty.run calls
  have hread : ∀ s f, parse r s = .ok f → f ∈ all r ∧ f.name = s := by
    intro s f h
    obtain ⟨hname, hf, -⟩ := (parse_eq_ok_iff hr).1 h
    exact ⟨hf, hname⟩
  -- a name of a field that is not read as this field is read as a metric
  have hname : ∀ f ∈ all r, ∃ g, parse r f.name = .ok g := by
    intro f hf
    cases hfind : r.find? f.name with
    | none => exact ⟨f, (parse_eq_ok_iff hr).2 ⟨rfl, hf, Or.inr hfind⟩⟩
    | some m =>
      obtain ⟨hm, hname⟩ := hr.find?_eq_some_iff.1 hfind
      rw [← hname]
      exact ⟨⟨m, .none⟩, parse_metric_name hr hm⟩
  refine ⟨?_, hread, lists_all (Registry.numbered_empty.run calls)⟩
  intro s
  constructor
  · rintro ⟨f, h⟩
    exact ⟨f, hread s f h⟩
  · rintro ⟨f, hf, rfl⟩
    exact hname f hf

/-! ## Names that stand for two fields -/

/-- Another metric is registered under all of the name of this aggregate. -/
def Shadowed (r : Registry) (f : Field) : Prop := f.aggregate ≠ .none ∧ ∃ m ∈ r.metrics, m.name = f.name

/-- The first field reads a metric plainly, whose name is that of the second one's metric with a suffix. -/
def Shadows (f g : Field) : Prop :=
  f.aggregate = .none ∧ g.aggregate ≠ .none ∧ f.metric.name = g.metric.name ++ "_" ++ g.aggregate.suffix

theorem shadows_iff : Shadows f g ↔ f.aggregate = .none ∧ g.aggregate ≠ .none ∧ f.name = g.name := by
  refine and_congr_right fun hf => and_congr_right fun hg => ?_
  rw [name_of_none hf, name, nameOf_of_ne_none hg]

theorem not_shadowed_iff (hr : r.Distinct) : ¬Shadowed r f ↔ f.aggregate = .none ∨ r.find? f.name = none := by
  rw [Shadowed, hr.find?_eq_none_iff]
  constructor
  · intro h
    by_cases ha : f.aggregate = .none
    · exact Or.inl ha
    · exact Or.inr fun m hm hname => h ⟨ha, m, hm, hname⟩
  · rintro h ⟨ha, m, hm, hname⟩
    exact h.resolve_left ha m hm hname

/-- Two fields of one name are one field, or one of them shadows the other. -/
theorem name_eq_iff (hr : r.Distinct) (hf : f ∈ all r) (hg : g ∈ all r) (hne : f ≠ g) :
    f.name = g.name ↔ Shadows f g ∨ Shadows g f := by
  constructor
  · intro hname
    by_cases ha : f.aggregate = .none
    · by_cases hb : g.aggregate = .none
      · rw [name_of_none ha, name_of_none hb] at hname
        have hmetric := List.inj_on_of_nodup_map hr.names (mem_all.1 hf).1 (mem_all.1 hg).1 hname
        exact absurd (Field.ext hmetric (ha.trans hb.symm)) hne
      · exact Or.inl (shadows_iff.2 ⟨ha, hb, hname⟩)
    · by_cases hb : g.aggregate = .none
      · exact Or.inr (shadows_iff.2 ⟨hb, ha, hname.symm⟩)
      · obtain ⟨hbase, haggregate⟩ := nameOf_inj ha hb hname
        have hmetric := List.inj_on_of_nodup_map hr.names (mem_all.1 hf).1 (mem_all.1 hg).1 hbase
        exact absurd (Field.ext hmetric haggregate) hne
  · rintro (h | h)
    · exact (shadows_iff.1 h).2.2
    · exact (shadows_iff.1 h).2.2.symm

theorem parse_name_iff (hr : r.Distinct) (hf : f ∈ all r) : parse r f.name = .ok f ↔ ¬Shadowed r f := by
  rw [parse_eq_ok_iff hr, not_shadowed_iff hr]
  simp [hf]

/-- The name of a field is read as this field, unless a metric has it: then as that metric. So names tell all fields
apart if and only if none of them is the name of a metric with the suffix of an aggregate that another one has. -/
theorem run_resolves (calls : List RegistryCall) :
    let r := Registry.run {} calls
    (∀ f ∈ all r, parse r f.name = .ok f ↔ ¬Shadowed r f) ∧
      (∀ f ∈ all r, Shadowed r f → ∃ m ∈ r.metrics, m.name = f.name ∧ parse r f.name = .ok ⟨m, .none⟩) ∧
      (∀ f ∈ all r, ∀ g ∈ all r, f ≠ g → (f.name = g.name ↔ Shadows f g ∨ Shadows g f)) ∧
      ((∀ f ∈ all r, parse r f.name = .ok f) ↔ ∀ f ∈ all r, ∀ g ∈ all r, f.name = g.name → f = g) := by
  intro r
  have hr : r.Distinct := Registry.distinct_empty.run calls
  refine ⟨fun f hf => parse_name_iff hr hf, ?_, fun f hf g hg hne => name_eq_iff hr hf hg hne, ?_⟩
  · intro f hf hshadowed
    obtain ⟨-, m, hm, hname⟩ := hshadowed
    rw [← hname]
    exact ⟨m, hm, rfl, parse_metric_name hr hm⟩
  constructor
  · intro hall f hf g hg hname
    have hread := hall f hf
    rw [hname, hall g hg] at hread
    exact (Except.ok.inj hread).symm
  · intro hall f hf
    refine (parse_name_iff hr hf).2 ?_
    rintro ⟨ha, m, hm, hname⟩
    have heq := hall ⟨m, .none⟩ (plain_mem_all hm) f hf hname
    exact ha (congrArg Field.aggregate heq).symm

/-- The standard fields are all told apart. -/
example : ∀ f ∈ all .standard, parse .standard f.name = .ok f := by decide +kernel

/-- An event, and a counter under the name of how often the event is observed. -/
def readsTwice : List RegistryCall := [.register "reads" (.event .bytes), .register "reads_count" .counter]

/-- How often the event was observed is named as the counter is, and read as the counter. -/
theorem count_read_as_counter :
    let count : Field := ⟨⟨0, "reads", .event .bytes⟩, .count⟩
    let counter : Field := ⟨⟨1, "reads_count", .counter⟩, .none⟩
    (count ∈ all (Registry.run {} readsTwice) ∧ counter ∈ all (Registry.run {} readsTwice)) ∧
      count.name = counter.name ∧ parse (Registry.run {} readsTwice) count.name = .ok counter := by
  decide +kernel

end Field

end FairShare.Metrics
