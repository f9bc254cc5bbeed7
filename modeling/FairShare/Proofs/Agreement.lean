import FairShare.Proofs.Listening
import FairShare.Proofs.Readings

/-!
# Two keepers of one stream

A keeper of records counts what each computer does, a keeper of sums what all of them do together. If both have heard
the same observations, what the one publishes of a metric is what the records of the other tell of it in all, whichever
computers made the observations and in whichever order. Two things can part them: the records stop at the largest word
where the sums come round, and of metrics that are published under one name the last counts.
-/

namespace FairShare.Metrics

/-! ## Observations of many computers -/

/-- The observations that one of the computers made. -/
def observedBy (computer : ComputerId) (ms : List (ComputerId × Observation)) : List Observation :=
  (ms.filter (·.1 = computer)).map (·.2)

section ObservedBy

variable {ms : List (ComputerId × Observation)}

theorem observedBy_concat (computer : ComputerId) (ms : List (ComputerId × Observation))
    (m : ComputerId × Observation) :
    observedBy computer (ms ++ [m]) = observedBy computer ms ++ if m.1 = computer then [m.2] else [] := by
  rw [observedBy, List.filter_append, List.map_append, List.filter_singleton]
  by_cases hm : m.1 = computer <;> simp [observedBy, hm]

/-- What adds up over observations adds up over the computers that made them. -/
theorem sum_observedBy {f : List Observation → Nat} (hf : ∀ os os', f (os ++ os') = f os + f os')
    {computers : List ComputerId} (hd : computers.Nodup) (hms : ∀ m ∈ ms, m.1 ∈ computers) :
    (computers.map fun d => f (observedBy d ms)).sum = f (ms.map (·.2)) := by
  have hnil : f [] = 0 := by
    have h := hf [] []
    rw [List.append_nil] at h
    omega
  induction ms using List.reverseRecOn with
  | nil => simp [observedBy, hnil]
  | append_singleton ms m ih =>
    have hms := List.forall_mem_append.1 hms
    have hstep : ∀ d, f (observedBy d (ms ++ [m])) = f (observedBy d ms) + if m.1 = d then f [m.2] else 0 := by
      intro d
      rw [observedBy_concat, hf]
      by_cases hd : m.1 = d <;> simp [hd, hnil]
    -- the last one adds to the share of the computer that made it, and to no other
    have hlast : (computers.map fun d => if m.1 = d then f [m.2] else 0).sum = f [m.2] := by
      rw [List.sum_map_eq_nsmul_single m.1 _ fun d hne _ => if_neg hne.symm,
        List.count_eq_one_of_mem hd (hms.2 m (List.mem_singleton_self m))]
      simp
    simp only [hstep]
    rw [List.sum_map_add, ih hms.1, hlast, List.map_append, hf]
    rfl

end ObservedBy

/-- Tells an observer what computers have observed. -/
def Observer.hearAll (o : Observer) (ms : List (ComputerId × Observation)) : Observer :=
  ms.foldl (fun o m => o.hear m.1 (.observed m.2)) o

/-! ## The records -/

/-- What the records tell of a metric, in all. -/
def RecordKeeper.sum (k : RecordKeeper) (m : Metric) (a : Aggregate) : Nat :=
  (k.records.map fun r => (r.get m a).toNat).sum

section Records

variable {history : List Sight} {k : RecordKeeper} {ms : List (ComputerId × Observation)}

theorem since_observed (history : List Sight) (ms : List (ComputerId × Observation)) (computer : ComputerId) :
    since (history ++ ms.map fun m => .observed m.1 m.2) computer =
      since history computer ++ observedBy computer ms := by
  induction ms using List.reverseRecOn with
  | nil => simp [observedBy]
  | append_singleton ms m ih =>
    rw [List.map_append, ← List.append_assoc, List.map_singleton, since_concat rfl, ih, observedBy_concat,
      List.append_assoc, Sight.of?]
    split <;> rfl

/-- A keeper that is tracking takes in all it is told. -/
theorem Replays.hearAll (h : Replays history k) (ht : k.tracking = true) (ms : List (ComputerId × Observation)) :
    ∃ k', (Observer.records k).hearAll ms = .records k' ∧
      Replays (history ++ ms.map fun m => .observed m.1 m.2) k' := by
  induction ms generalizing k history with
  | nil => exact ⟨k, rfl, by simpa using h⟩
  | cons m ms ih =>
    have hheard : k.hear m.1 (.observed m.2) = k.record m.1 m.2 := by simp [RecordKeeper.hear, ht]
    have htracking : (k.record m.1 m.2).tracking = true := hheard ▸ (k.hear_tracking m.1 (.observed m.2)).trans ht
    obtain ⟨k', hk', h'⟩ := ih (h.observed m.1 m.2) htracking
    refine ⟨k', ?_, by simpa using h'⟩
    rw [← hk', ← hheard]
    rfl

/-- What each record tells adds up to what was observed in all, as long as that fits a word. -/
theorem Replays.sum_eq (h : Replays history k) (hsince : ∀ computer, since history computer = observedBy computer ms)
    {m : Metric} {a : Aggregate} {f : List Observation → Nat} (hf : ∀ os os', f (os ++ os') = f os + f os')
    (htells : ∀ computer, ((Record.replay computer (observedBy computer ms)).get m a).toNat =
      clampWord (f (observedBy computer ms)))
    (hle : f (ms.map (·.2)) ≤ maxWord) : k.sum m a = f (ms.map (·.2)) := by
  have hlisted : ∀ x ∈ ms, x.1 ∈ k.computers := by
    intro x hx
    refine (h.listed x.1).2 (hsince x.1 ▸ List.ne_nil_of_mem (a := x.2) ?_)
    exact List.mem_map_of_mem (List.mem_filter.2 ⟨hx, by simp⟩)
  have hall := sum_observedBy hf h.indexed.nodup hlisted
  calc k.sum m a
      = (k.computers.map fun d => ((Record.replay d (observedBy d ms)).get m a).toNat).sum := by
        rw [RecordKeeper.sum, RecordKeeper.computers, List.map_map]
        refine congrArg List.sum (List.map_congr_left fun r hr => ?_)
        have hreplayed := h.replayed r hr
        rw [hsince] at hreplayed
        exact congrArg (fun r => (Record.get r m a).toNat) hreplayed
    _ = (k.computers.map fun d => f (observedBy d ms)).sum := by
        refine congrArg List.sum (List.map_congr_left fun d hd => ?_)
        have hshare : f (observedBy d ms) ≤ f (ms.map (·.2)) :=
          hall ▸ List.le_sum_of_mem (List.mem_map_of_mem (f := fun d => f (observedBy d ms)) hd)
        rw [htells, clampWord_of_le (hshare.trans hle)]
    _ = f (ms.map (·.2)) := hall

end Records

/-! ## The sums -/

/-- The names under which the sums of a metric are published. -/
def Metric.attributeNames (m : Metric) : List String := (TotalKeeper.attributesOf m {}).map (·.1)

/-- No other metric of a registry is published under a name of this one. -/
def Registry.Sole (r : Registry) (m : Metric) : Prop :=
  ∀ m' ∈ r.metrics, m' ≠ m → ∀ key ∈ m'.attributeNames, key ∉ m.attributeNames

instance (r : Registry) (m : Metric) : Decidable (r.Sole m) :=
  inferInstanceAs (Decidable (∀ m' ∈ r.metrics, _ → ∀ key ∈ m'.attributeNames, key ∉ m.attributeNames))

namespace TotalKeeper

/-- The number that is published under a name. -/
def attribute? (k : TotalKeeper) (r : Registry) (key : String) : Option Nat :=
  ((k.attributes r).lookup key).map (·.toNat)

variable {r : Registry} {k : TotalKeeper} {os : List Observation} {m : Metric} {t : Total}

/-- A keeper of sums has these observations, by the number of the metric, up to whole rounds. -/
structure Sums (k : TotalKeeper) (r : Registry) (os : List Observation) : Prop where
  length : k.totals.length = r.metrics.length
  count : ∀ i t, k.totals[i]? = some t → t.count.toNat = wrapWord (observationsAt i os).length
  value : ∀ i t, k.totals[i]? = some t → t.value.toNat = wrapWord (valuesAt i os).sum

theorem sums_create (r : Registry) (tracking : Bool) : Sums { create r with tracking } r [] := by
  have hzero : ∀ (i : Nat) (t : Total), (create r).totals[i]? = some t → t = {} := by
    intro i t ht
    rw [create, List.getElem?_map] at ht
    obtain ⟨-, -, rfl⟩ := Option.map_eq_some_iff.1 ht
    rfl
  refine ⟨by simp [create], fun i t ht => ?_, fun i t ht => ?_⟩ <;> rw [hzero i t ht] <;> rfl

theorem add_toNat (t : Total) (o : Observation) :
    (add t o).count.toNat = wrapWord (t.count.toNat + 1) ∧
      (add t o).value.toNat = wrapWord (t.value.toNat + (o.value?.toList).sum) := by
  cases o with
  | counter m =>
    have hword : t.value.toNat ≤ maxWord := Nat.le_of_lt_succ t.value.toNat_lt
    exact ⟨toNat_wrapAdd t.count 1, (wrapWord_of_le hword).symm⟩
  | event m value => exact ⟨toNat_wrapAdd t.count 1, toNat_wrapAdd t.value value⟩

theorem Sums.hear (h : k.Sums r os) (o : Observation) : (k.hear (.observed o)).Sums r (os ++ [o]) := by
  have hplace : ∀ i t, (k.hear (.observed o)).totals[i]? = some t →
      ∃ t', k.totals[i]? = some t' ∧ t = if o.metric.id = i then add t' o else t' := by
    intro i t ht
    rw [TotalKeeper.hear, List.getElem?_modify] at ht
    by_cases hi : o.metric.id = i
    · obtain ⟨t', ht', rfl⟩ := Option.map_eq_some_iff.1 ht
      exact ⟨t', ht', by simp [hi]⟩
    · exact ⟨t, by simpa [hi] using ht, by simp [hi]⟩
  refine ⟨(List.length_modify ..).trans h.length, fun i t ht => ?_, fun i t ht => ?_⟩
  case refine_1 =>
    obtain ⟨t', ht', rfl⟩ := hplace i t ht
    rw [observationsAt_concat, List.length_append]
    split
    · rw [(add_toNat t' o).1, h.count i t' ht', wrapWord_wrapWord_add]
      rfl
    · exact h.count i t' ht'
  case refine_2 =>
    obtain ⟨t', ht', rfl⟩ := hplace i t ht
    rw [valuesAt_concat, List.sum_append]
    split
    · rw [(add_toNat t' o).2, h.value i t' ht', wrapWord_wrapWord_add]
    · exact h.value i t' ht'

theorem Sums.hearAll (h : k.Sums r os) (ms : List (ComputerId × Observation)) :
    ∃ k', (Observer.totals k).hearAll ms = .totals k' ∧ k'.Sums r (os ++ ms.map (·.2)) := by
  induction ms generalizing k os with
  | nil => exact ⟨k, rfl, by simpa using h⟩
  | cons m ms ih =>
    obtain ⟨k', hk', h'⟩ := ih (h.hear m.2)
    exact ⟨k', hk', by simpa using h'⟩

/-! ## What is published -/

theorem lookup_insert (key : String) (value : UInt64) (table : List (String × UInt64)) (a : String) :
    (insert key value table).lookup a = if a = key then some value else table.lookup a := by
  induction table with
  | nil => exact lookup_cons_ite key value [] a
  | cons entry table ih =>
    obtain ⟨k, v⟩ := entry
    rw [insert]
    split
    case isTrue => exact lookup_cons_ite ..
    case isFalse =>
      split
      case isTrue heq =>
        subst heq
        simp only [lookup_cons_ite]
        split <;> rfl
      case isFalse hne =>
        simp only [lookup_cons_ite, ih]
        by_cases ha : a = k
        · simp [ha, Ne.symm hne]
        · simp [ha]

/-- Of entries with one key the last counts. -/
theorem lookup_foldl_insert (entries table : List (String × UInt64)) (a : String) :
    (entries.foldl (fun table (key, value) => insert key value table) table).lookup a =
      (entries.reverse.lookup a).or (table.lookup a) := by
  induction entries generalizing table with
  | nil => rfl
  | cons entry entries ih =>
    rw [List.foldl_cons, ih, lookup_insert, List.reverse_cons, List.lookup_append, Option.or_assoc, lookup_cons_ite]
    split <;> simp

theorem lookup_of_sole {entries : List (String × UInt64)} {key : String} {value : UInt64}
    (hmem : (key, value) ∈ entries) (hsole : ∀ entry ∈ entries, entry.1 = key → entry.2 = value) :
    entries.lookup key = some value := by
  induction entries with
  | nil => cases hmem
  | cons entry entries ih =>
    obtain ⟨k, v⟩ := entry
    rw [lookup_cons_ite]
    split
    case isTrue heq => exact congrArg some (hsole _ List.mem_cons_self heq.symm)
    case isFalse hne =>
      have hrest : (key, value) ∈ entries := (List.mem_cons.1 hmem).resolve_left fun heq => hne (congrArg Prod.fst heq)
      exact ih hrest fun entry he => hsole entry (List.mem_cons_of_mem _ he)

theorem attributesOf_names (m : Metric) (t : Total) : (attributesOf m t).map (·.1) = m.attributeNames := by
  unfold Metric.attributeNames attributesOf
  cases m.kind <;> rfl

theorem attributesOf_nodup (m : Metric) (t : Total) : ((attributesOf m t).map (·.1)).Nodup := by
  have hne : m.camelName ++ "Count" ≠ m.camelName := by
    intro heq
    have hlength := congrArg String.length heq
    have hcount : "Count".length = 5 := by decide
    rw [String.length_append, hcount] at hlength
    omega
  unfold attributesOf
  cases m.kind <;> simp [hne]

/-- Of the metrics with one key the last is published. -/
theorem attribute?_latest (hr : r.Numbered) (hm : m ∈ r.metrics) (ht : k.totals[m.id]? = some t) {key : String}
    {value : UInt64} (hmem : (key, value) ∈ attributesOf m t)
    (hlatest : ∀ m' ∈ r.metrics, m.id < m'.id → key ∉ m'.attributeNames) : k.attribute? r key = some value.toNat := by
  have hzip : (r.metrics.zip k.totals)[m.id]? = some (m, t) := List.getElem?_zip_eq_some.2 ⟨hr.get?_id hm, ht⟩
  obtain ⟨hlt, hget⟩ := List.getElem?_eq_some_iff.1 hzip
  have hsplit : r.metrics.zip k.totals =
      (r.metrics.zip k.totals).take m.id ++ (m, t) :: (r.metrics.zip k.totals).drop (m.id + 1) := by
    rw [← hget, List.getElem_cons_drop, List.take_append_drop]
  have hlater : (((r.metrics.zip k.totals).drop (m.id + 1)).flatMap fun p => attributesOf p.1 p.2).reverse.lookup key =
      none := by
    refine List.lookup_eq_none_iff.2 fun entry he => bne_iff_ne.2 ?_
    rintro rfl
    rw [List.mem_reverse, List.mem_flatMap] at he
    obtain ⟨⟨m', t'⟩, hdrop, he⟩ := he
    obtain ⟨i, hi⟩ := List.mem_iff_getElem?.1 hdrop
    rw [List.getElem?_drop] at hi
    obtain ⟨hm', -⟩ := List.getElem?_zip_eq_some.1 hi
    have hid := hr _ m' hm'
    exact hlatest m' (List.mem_of_getElem? hm') (by omega) (attributesOf_names m' t' ▸ List.mem_map_of_mem he)
  have hown : (attributesOf m t).reverse.lookup key = some value := by
    refine lookup_of_sole (List.mem_reverse.2 hmem) fun entry he heq => ?_
    exact congrArg Prod.snd (List.inj_on_of_nodup_map (attributesOf_nodup m t) (List.mem_reverse.1 he) hmem heq)
  rw [attribute?, attributes, lookup_foldl_insert, hsplit, List.flatMap_append, List.flatMap_cons, List.reverse_append,
    List.reverse_append, List.append_assoc, List.lookup_append, hlater, Option.none_or, List.lookup_append, hown]
  rfl

/-- What a metric publishes is found, if no other metric is published under its names. -/
theorem attribute?_eq (hr : r.Numbered) (hm : m ∈ r.metrics) (hsole : r.Sole m) (ht : k.totals[m.id]? = some t)
    {key : String} {value : UInt64} (hmem : (key, value) ∈ attributesOf m t) :
    k.attribute? r key = some value.toNat := by
  have hkey : key ∈ m.attributeNames := attributesOf_names m t ▸ List.mem_map_of_mem hmem
  refine attribute?_latest hr hm ht hmem fun m' hm' hlt hkey' => ?_
  have hne : m' ≠ m := by
    rintro rfl
    exact Nat.lt_irrefl _ hlt
  exact hsole m' hm' hne key hkey' hkey

theorem mem_attributesOf_counter (h : m.kind.isCounter = true) (t : Total) :
    (m.camelName, t.count) ∈ attributesOf m t := by
  unfold attributesOf
  cases hkind : m.kind with
  | counter => simp
  | event unit => simp [hkind, MetricKind.isCounter] at h

theorem mem_attributesOf_event (h : m.kind.isCounter = false) (t : Total) :
    (m.camelName ++ "Count", t.count) ∈ attributesOf m t ∧ (m.camelName, t.value) ∈ attributesOf m t := by
  unfold attributesOf
  cases hkind : m.kind with
  | counter => simp [hkind, MetricKind.isCounter] at h
  | event unit => simp

end TotalKeeper

/-! ## Both of them -/

/-- What is published of a metric is what the records tell in all, as long as that fits a word. -/
structure Agree (k : RecordKeeper) (t : TotalKeeper) (r : Registry) (m : Metric) (os : List Observation) : Prop where
  counter : m.kind.isCounter = true → (observationsOf m os).length ≤ maxWord →
    t.attribute? r m.camelName = some (k.sum m .none)
  value : m.kind.isCounter = false → (valuesOf m os).sum ≤ maxWord →
    t.attribute? r m.camelName = some (k.sum m .none)
  count : m.kind.isCounter = false → (observationsOf m os).length ≤ maxWord →
    t.attribute? r (m.camelName ++ "Count") = some (k.sum m .count)

theorem Replays.agree {r : Registry} (hr : r.Numbered) {history : List Sight} {k : RecordKeeper}
    {ms : List (ComputerId × Observation)} (hk : Replays history k)
    (hsince : ∀ computer, since history computer = observedBy computer ms) {t : TotalKeeper}
    (ht : t.Sums r (ms.map (·.2))) (hms : ∀ x ∈ ms, x.2.Of r) {m : Metric} (hm : m ∈ r.metrics) (hsole : r.Sole m) :
    Agree k t r m (ms.map (·.2)) := by
  have hos : ∀ o ∈ ms.map (·.2), o.Of r := List.forall_mem_map.2 hms
  have htells : ∀ d, (Record.replay d (observedBy d ms)).Tells m (observedBy d ms) := by
    refine fun d => (Record.replay_holds d _).tells hr (List.forall_mem_map.2 fun x hx => ?_) hm
    exact hms x (List.mem_filter.1 hx).1
  obtain ⟨total, htotal⟩ : ∃ total, t.totals[m.id]? = some total := by
    obtain ⟨hlt, -⟩ := List.getElem?_eq_some_iff.1 (hr.get?_id hm)
    exact ⟨_, List.getElem?_eq_getElem (ht.length ▸ hlt)⟩
  have hcount := ht.count m.id total htotal
  have hvalue := ht.value m.id total htotal
  rw [observationsAt_id hr hos hm] at hcount
  rw [valuesAt_id hr hos hm] at hvalue
  constructor
  case counter =>
    intro hkind hle
    have hsum := hk.sum_eq hsince (f := fun os => (observationsOf m os).length)
      (fun os os' => by rw [observationsOf_append, List.length_append]) (fun d => (htells d).counter hkind .none) hle
    rw [TotalKeeper.attribute?_eq hr hm hsole htotal (TotalKeeper.mem_attributesOf_counter hkind total), hcount,
      wrapWord_of_le hle, hsum]
  case value =>
    intro hkind hle
    have hsum := hk.sum_eq hsince (f := fun os => (valuesOf m os).sum)
      (fun os os' => by rw [valuesOf_append, List.sum_append]) (fun d => (htells d).sum hkind) hle
    rw [TotalKeeper.attribute?_eq hr hm hsole htotal (TotalKeeper.mem_attributesOf_event hkind total).2, hvalue,
      wrapWord_of_le hle, hsum]
  case count =>
    intro hkind hle
    rw [← length_valuesOf hos hkind] at hcount hle
    have hsum := hk.sum_eq hsince (f := fun os => (valuesOf m os).length)
      (fun os os' => by rw [valuesOf_append, List.length_append]) (fun d => (htells d).count hkind) hle
    rw [TotalKeeper.attribute?_eq hr hm hsole htotal (TotalKeeper.mem_attributesOf_event hkind total).1, hcount,
      wrapWord_of_le hle, hsum]

/-- Whether a call leaves an observer as it is, but for what it hears: an observation, and what is done with others. -/
def ContextCall.leaves (i : Nat) : ContextCall → Bool
  | .start j | .stop j | .add j | .remove j => j ≠ i
  | .observe _ _ => true
  | .unload _ | .shutdown => false

/-- What is observed by a call. -/
def ContextCall.observed? : ContextCall → Option (ComputerId × Observation)
  | .observe computer o => some (computer, o)
  | _ => none

/-- What is observed by a sequence of calls. -/
def observed (calls : List ContextCall) : List (ComputerId × Observation) := calls.filterMap (·.observed?)

namespace Context

variable {c : Context} {i j : Nat}

theorem after_registry (c : Context) (x : ContextCall) : (c.after x).registry = c.registry := by
  cases x with
  | observe computer o =>
    simp only [Context.after, observe]
    split <;> rfl
  | _ =>
    grind [Context.after, start, stop, setTracking, addObserver, removeObserver, computerUnloaded, broadcast, shutdown]

theorem run_registry (c : Context) (calls : List ContextCall) : (c.run calls).registry = c.registry := by
  induction calls generalizing c with
  | nil => rfl
  | cons x calls ih => exact (ih (c.after x)).trans (after_registry c x)

/-- A registered observer hears an observation, and nothing else happens to it. -/
theorem Coherent.after_leaves (hc : c.Coherent) (hi : i ∈ c.registered) {x : ContextCall} (hx : x.leaves i = true) :
    i ∈ (c.after x).registered ∧
      (c.after x).observers[i]? = c.observers[i]?.map (·.hearAll x.observed?.toList) := by
  have hkeep : ∀ {c' : Context}, c'.observers[i]? = c.observers[i]? →
      c'.observers[i]? = c.observers[i]?.map (·.hearAll []) := fun h => h.trans (Option.map_id' ..).symm
  cases x with
  | start j =>
    have hj : j ≠ i := by simpa [ContextCall.leaves] using hx
    exact ⟨(mem_start_registered hj).2 hi, hkeep (c.start_getElem?_of_ne hj)⟩
  | stop j =>
    have hj : j ≠ i := by simpa [ContextCall.leaves] using hx
    exact ⟨(mem_stop_registered hj).2 hi, hkeep (c.stop_getElem?_of_ne hj)⟩
  | add j =>
    have hj : j ≠ i := by simpa [ContextCall.leaves] using hx
    exact ⟨(mem_addObserver_registered hj).2 hi, hkeep (by rw [Context.after, addObserver_observers])⟩
  | remove j =>
    have hj : j ≠ i := by simpa [ContextCall.leaves] using hx
    exact ⟨by simp [Context.after, hi, Ne.symm hj], hkeep rfl⟩
  | observe computer o =>
    simp only [Context.after, hc.observe_eq]
    exact ⟨hi, (hc.broadcast_getElem? computer (.observed o) i).trans (if_pos hi)⟩
  | unload computer => cases hx
  | shutdown => cases hx

theorem Coherent.run_leaves (hc : c.Coherent) (hi : i ∈ c.registered) {calls : List ContextCall}
    (hcalls : ∀ x ∈ calls, x.leaves i = true) :
    (c.run calls).observers[i]? = c.observers[i]?.map (·.hearAll (observed calls)) := by
  induction calls generalizing c with
  | nil => exact (Option.map_id' ..).symm
  | cons x calls ih =>
    obtain ⟨hi', hx⟩ := hc.after_leaves hi (hcalls x List.mem_cons_self)
    have hrun := ih (hc.after x) hi' fun y hy => hcalls y (List.mem_cons_of_mem x hy)
    refine hrun.trans ?_
    rw [hx, Option.map_map]
    congr 1
    funext o
    cases hobs : x.observed? <;> simp [observed, hobs, Observer.hearAll]

/-- A keeper of records and one of sums were started, and have not heard anything yet. -/
structure Begun (c : Context) (i j : Nat) : Prop where
  records : c.observers[i]? = some (.records { tracking := true })
  totals : c.observers[j]? = some (.totals { TotalKeeper.create c.registry with tracking := true })
  registered : i ∈ c.registered ∧ j ∈ c.registered

theorem start_new {o : Observer} (h : c.observers[i]? = some o) (hoff : o.tracking = false) :
    (c.after (.start i)).observers[i]? = some (o.setTracking true) ∧ i ∈ (c.after (.start i)).registered := by
  constructor
  · rw [Context.after, start_observers, setTracking_observers, List.getElem?_modify_eq, h]
    rfl
  · rw [after_registered, roll]
    split
    case isTrue hreg => exact hreg.resolve_left (by simp [tracks, h, hoff])
    case isFalse => simp

theorem start_start (hij : i ≠ j) {o o' : Observer} (hi : c.observers[i]? = some o) (hj : c.observers[j]? = some o')
    (ho : o.tracking = false) (ho' : o'.tracking = false) :
    ((c.run [.start i, .start j]).observers[i]? = some (o.setTracking true) ∧
        (c.run [.start i, .start j]).observers[j]? = some (o'.setTracking true)) ∧
      i ∈ (c.run [.start i, .start j]).registered ∧ j ∈ (c.run [.start i, .start j]).registered := by
  obtain ⟨hfirst, hin⟩ := start_new hi ho
  obtain ⟨hsecond, hin'⟩ := start_new ((c.start_getElem?_of_ne hij).trans hj) ho'
  exact ⟨⟨(start_getElem?_of_ne _ hij.symm).trans hfirst, hsecond⟩, (mem_start_registered hij.symm).2 hin, hin'⟩

/-- Two new keepers that are started, in either order. -/
theorem begun_of_starts (hi : c.observers[i]? = some (.records {}))
    (hj : c.observers[j]? = some (.totals (.create c.registry))) :
    (c.run [.start i, .start j]).Begun i j ∧ (c.run [.start j, .start i]).Begun i j := by
  have hij : i ≠ j := by
    rintro rfl
    rw [hi] at hj
    cases hj
  obtain ⟨hobservers, hregistered⟩ := start_start hij hi hj rfl rfl
  obtain ⟨hobservers', hregistered'⟩ := start_start hij.symm hj hi rfl rfl
  exact ⟨⟨hobservers.1, (run_registry c _).symm ▸ hobservers.2, hregistered⟩,
    ⟨hobservers'.2, (run_registry c _).symm ▸ hobservers'.1, hregistered'.symm⟩⟩

/-- Two keepers that listen from the beginning agree on each metric that has its names for itself, whatever the metrics
of the context are and whichever of them the computers observe. -/
theorem run_agrees (calls : List RegistryCall) {new : Context} (hnew : ofRegistry (Registry.run {} calls) = .ok new)
    (observers : List Observer) (earlier : List ContextCall) (hbegun : ({ new with observers }.run earlier).Begun i j)
    (later : List ContextCall) (hlater : ∀ x ∈ later, x.leaves i = true ∧ x.leaves j = true)
    (hobserved : ∀ m ∈ observed later, m.2.Of (Registry.run {} calls)) :
    let c := ({ new with observers }.run earlier).run later
    ∃ k t, c.observers[i]? = some (.records k) ∧ c.observers[j]? = some (.totals t) ∧
      ∀ m ∈ c.registry.metrics, c.registry.Sole m → Agree k t c.registry m ((observed later).map (·.2)) := by
  intro c
  obtain ⟨standard, rfl⟩ := ofRegistry_eq hnew
  have hfirst : ({ registry := Registry.run {} calls, standard, observers } : Context).Coherent :=
    ⟨List.nodup_nil, rfl⟩
  have hstarted := hfirst.run earlier
  have hregistry : c.registry = Registry.run {} calls := by rw [run_registry, run_registry]
  have hk := hstarted.run_leaves hbegun.registered.1 fun x hx => (hlater x hx).1
  have ht := hstarted.run_leaves hbegun.registered.2 fun x hx => (hlater x hx).2
  rw [hbegun.records, Option.map_some] at hk
  rw [hbegun.totals, run_registry, Option.map_some] at ht
  obtain ⟨k, hk', hreplays⟩ := (Replays.cleared [] {} true).hearAll rfl (observed later)
  obtain ⟨t, ht', hsums⟩ := (TotalKeeper.sums_create (Registry.run {} calls) true).hearAll (observed later)
  have hsince : ∀ d, since ([] ++ [.cleared] ++ (observed later).map fun m => .observed m.1 m.2) d =
      observedBy d (observed later) := by
    intro d
    rw [since_observed, since_concat_of_ends rfl, List.nil_append]
  refine ⟨k, t, hk.trans (congrArg some hk'), ht.trans (congrArg some ht'), ?_⟩
  rw [hregistry]
  intro m hm hsole
  exact hreplays.agree (Registry.numbered_empty.run calls) hsince hsums hobserved hm hsole

/-- Two computers, and a third observer that comes and goes. -/
def mixed : List ContextCall :=
  let task (computer : ComputerId) (time : UInt64) : ContextCall :=
    .observe computer (.event watched.standard.computerTasks time)
  let op (computer : ComputerId) : ContextCall := .observe computer (.counter watched.standard.fsOps)
  [task ⟨1⟩ 7, .add 2, op ⟨2⟩, task ⟨2⟩ 30, .remove 2, task ⟨1⟩ 5, op ⟨1⟩, op ⟨2⟩]

/-- The sums are started first, and the records add up to them. -/
theorem agrees_mixed : ∃ k t,
    ((twoKeepers.run [.start 1, .start 0]).run mixed).observers[0]? = some (.records k) ∧
    ((twoKeepers.run [.start 1, .start 0]).run mixed).observers[1]? = some (.totals t) ∧
    t.attribute? .standard "computerTasks" = some (k.sum watched.standard.computerTasks .none) ∧
    k.sum watched.standard.computerTasks .none = 42 ∧
    ∀ m ∈ Registry.standard.metrics, Agree k t .standard m ((observed mixed).map (·.2)) := by
  obtain ⟨k, t, hk, ht, hagree⟩ := run_agrees [.registerStandard] ofRegistry_standard twoKeepers.observers
    [.start 1, .start 0] (begun_of_starts rfl rfl).2 mixed (by decide) (by decide +kernel)
  have hsole : ∀ m ∈ Registry.standard.metrics, Registry.standard.Sole m := by decide +kernel
  have hall : ∀ m ∈ Registry.standard.metrics, Agree k t .standard m ((observed mixed).map (·.2)) :=
    fun m hm => hagree m hm (hsole m hm)
  have htold : (((twoKeepers.run [.start 1, .start 0]).run mixed).observers[0]?.map fun
      | .records k => k.sum watched.standard.computerTasks .none
      | _ => 0) = some 42 := by
    decide +kernel
  have hk : ((twoKeepers.run [.start 1, .start 0]).run mixed).observers[0]? = some (.records k) := hk
  rw [hk] at htold
  have hname : watched.standard.computerTasks.camelName = "computerTasks" := by decide +kernel
  have htasks := (hall watched.standard.computerTasks (by decide +kernel)).value rfl (by decide +kernel)
  rw [hname] at htasks
  exact ⟨k, t, hk, ht, htasks, Option.some.inj htold, hall⟩

end Context

end FairShare.Metrics
