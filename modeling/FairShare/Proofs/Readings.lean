import FairShare.Proofs.Numbering
import FairShare.Proofs.Replay
import Mathlib

/-!
# What a record tells

A new record that takes observations in has room for all of them, in three tables of one size, and under each number
it holds how often the metric was observed, the sum of the values and the largest of them. So what it tells of a metric
depends on the observations of that metric alone, and a count or a sum that does not fit a word is told as the largest
one.
-/

namespace FairShare.Metrics

/-- The value that was observed, if the metric has values. -/
def Observation.value? : Observation → Option Nat
  | .counter _ => none
  | .event _ value => some value.toNat

/-- The observations of a metric among others. -/
def observationsOf (m : Metric) (os : List Observation) : List Observation := os.filter (·.metric = m)

/-- The values with which a metric was observed. -/
def valuesOf (m : Metric) (os : List Observation) : List Nat := (observationsOf m os).filterMap (·.value?)

/-- The observations under a number. -/
def observationsAt (i : Nat) (os : List Observation) : List Observation := os.filter (·.metric.id = i)

/-- The values that were observed under a number. -/
def valuesAt (i : Nat) (os : List Observation) : List Nat := (observationsAt i os).filterMap (·.value?)

section Observations

variable {i : Nat} {os : List Observation}

theorem observationsOf_append (m : Metric) (os os' : List Observation) :
    observationsOf m (os ++ os') = observationsOf m os ++ observationsOf m os' := List.filter_append os os'

theorem valuesOf_append (m : Metric) (os os' : List Observation) :
    valuesOf m (os ++ os') = valuesOf m os ++ valuesOf m os' := by
  rw [valuesOf, observationsOf_append, List.filterMap_append]
  rfl

theorem observationsAt_concat (i : Nat) (os : List Observation) (o : Observation) :
    observationsAt i (os ++ [o]) = observationsAt i os ++ if o.metric.id = i then [o] else [] := by
  rw [observationsAt, List.filter_append, List.filter_singleton]
  simp [observationsAt]

theorem valuesAt_concat (i : Nat) (os : List Observation) (o : Observation) :
    valuesAt i (os ++ [o]) = valuesAt i os ++ if o.metric.id = i then o.value?.toList else [] := by
  rw [valuesAt, observationsAt_concat, List.filterMap_append]
  split
  · cases ho : o.value? <;> simp [valuesAt, ho]
  · simp [valuesAt]

theorem valuesAt_counter (i : Nat) (os : List Observation) (m : Metric) :
    valuesAt i (os ++ [.counter m]) = valuesAt i os := by
  rw [valuesAt_concat]
  simp [Observation.value?]

theorem valuesAt_event (i : Nat) (os : List Observation) (m : Metric) (value : UInt64) :
    valuesAt i (os ++ [.event m value]) = valuesAt i os ++ if m.id = i then [value.toNat] else [] :=
  valuesAt_concat i os (.event m value)

variable {r : Registry} {m : Metric}

/-- What was observed of a metric stands under its number, and nothing else does. -/
theorem observationsAt_id (hr : r.Numbered) (hos : ∀ o ∈ os, o.Of r) (hm : m ∈ r.metrics) :
    observationsAt m.id os = observationsOf m os := by
  refine List.filter_congr fun o ho => ?_
  have hiff : o.metric.id = m.id ↔ o.metric = m :=
    ⟨fun hid => hr.eq_of_id (hos o ho).1 hm hid, fun heq => heq ▸ rfl⟩
  simp [hiff]

theorem valuesAt_id (hr : r.Numbered) (hos : ∀ o ∈ os, o.Of r) (hm : m ∈ r.metrics) :
    valuesAt m.id os = valuesOf m os := by
  rw [valuesAt, observationsAt_id hr hos hm, valuesOf]

/-- An event is observed with a value each time. -/
theorem length_valuesOf (hos : ∀ o ∈ os, o.Of r) (hm : m.kind.isCounter = false) :
    (valuesOf m os).length = (observationsOf m os).length := by
  have hall : ∀ o ∈ observationsOf m os, (o.value?).isSome = true := by
    intro o ho
    obtain ⟨hmem, heq⟩ := List.mem_filter.1 ho
    obtain rfl : o.metric = m := by simpa using heq
    cases o with
    | counter m =>
      have hkind := (hos _ hmem).2.2 rfl
      rw [hm] at hkind
      cases hkind
    | event m value => rfl
  rw [valuesOf, List.length_filterMap_eq_countP, List.countP_eq_length.2 hall]

end Observations

namespace Record

/-! ## The size of the tables -/

theorem grownSize_eq {size : Nat} (h : 0 < size) (i : Nat) :
    ∃ k, grownSize size i = size * 2 ^ k ∧ i < size * 2 ^ k ∧ ∀ j < k, size * 2 ^ j ≤ i := by
  fun_induction grownSize size i with
  | case1 size hle ih =>
    obtain ⟨k, hk, hlt, hleast⟩ := ih (by omega)
    have hdouble : ∀ j, 2 * size * 2 ^ j = size * 2 ^ (j + 1) := fun j => by
      rw [Nat.pow_succ', Nat.mul_comm 2 size, Nat.mul_assoc]
    refine ⟨k + 1, hk.trans (hdouble k), hdouble k ▸ hlt, fun j hj => ?_⟩
    cases j with
    | zero => simpa using hle.2
    | succ j => exact hdouble j ▸ hleast j (by omega)
  | case2 size hlt => exact ⟨0, by simp, by omega, fun j hj => absurd hj (Nat.not_lt_zero j)⟩

/-- A size that is the least to hold the numbers of these observations. -/
def Fits (os : List Observation) (size : Nat) : Prop :=
  IsLeast {size | (∃ k, size = initialCapacity * 2 ^ k) ∧ ∀ o ∈ os, o.metric.id < size} size

theorem fits_nil : Fits [] initialCapacity := by
  refine ⟨⟨⟨0, rfl⟩, fun o ho => absurd ho List.not_mem_nil⟩, ?_⟩
  rintro size ⟨⟨k, rfl⟩, -⟩
  exact Nat.le_mul_of_pos_right _ (Nat.two_pow_pos k)

theorem Fits.pos {os : List Observation} {size : Nat} (h : Fits os size) : 0 < size := by
  obtain ⟨⟨⟨k, rfl⟩, -⟩, -⟩ := h
  exact Nat.mul_pos (by decide) (Nat.two_pow_pos k)

/-- The size that is needed for one more observation. -/
def roomFor (size i : Nat) : Nat := if i < size then size else grownSize (max size 1) i

theorem Fits.grow {os : List Observation} {size : Nat} (h : Fits os size) (o : Observation) :
    Fits (os ++ [o]) (roomFor size o.metric.id) := by
  have hpos := h.pos
  obtain ⟨⟨⟨k, rfl⟩, hold⟩, hleast⟩ := h
  -- a size for all of them is one for the earlier ones
  have hfewer : ∀ other, (∀ x ∈ os ++ [o], x.metric.id < other) → ∀ x ∈ os, x.metric.id < other :=
    fun other hother x hx => hother x (List.mem_append_left _ hx)
  unfold roomFor
  split
  case isTrue hlt =>
    refine ⟨⟨⟨k, rfl⟩, ?_⟩, fun other hother => hleast ⟨hother.1, hfewer other hother.2⟩⟩
    intro x hx
    rcases List.mem_append.1 hx with hx | hx
    · exact hold x hx
    · exact List.mem_singleton.1 hx ▸ hlt
  case isFalse hle =>
    rw [Nat.max_eq_left hpos]
    obtain ⟨j, hj, hlt, hsmaller⟩ := grownSize_eq hpos o.metric.id
    rw [hj]
    have hpow : ∀ l, initialCapacity * 2 ^ k * 2 ^ l = initialCapacity * 2 ^ (k + l) := fun l => by
      rw [Nat.pow_add, Nat.mul_assoc]
    refine ⟨⟨⟨k + j, hpow j⟩, ?_⟩, ?_⟩
    · intro x hx
      rcases List.mem_append.1 hx with hx | hx
      · exact Nat.lt_of_lt_of_le (hold x hx) (Nat.le_mul_of_pos_right _ (Nat.two_pow_pos j))
      · exact List.mem_singleton.1 hx ▸ hlt
    · rintro other ⟨⟨l, rfl⟩, hother⟩
      have hk : k ≤ l := by
        have hle := hleast ⟨⟨l, rfl⟩, hfewer _ hother⟩
        exact (Nat.pow_le_pow_iff_right (by decide)).1 (Nat.le_of_mul_le_mul_left hle (by decide))
      obtain ⟨d, rfl⟩ := Nat.exists_eq_add_of_le hk
      have hlast := hother o (by simp)
      rw [← hpow d] at hlast ⊢
      -- a smaller doubling does not hold the last number
      have hjd : j ≤ d := by
        by_contra hlt
        exact absurd (hsmaller d (by omega)) (by omega)
      exact Nat.mul_le_mul_left _ (Nat.pow_le_pow_right (by decide) hjd)

theorem roomFor_gt {os : List Observation} {size : Nat} (h : Fits os size) (o : Observation) :
    o.metric.id < roomFor size o.metric.id :=
  (h.grow o).1.2 o (by simp)

theorem le_roomFor {size : Nat} (h : 0 < size) (i : Nat) : size ≤ roomFor size i := by
  unfold roomFor
  split
  · exact Nat.le_refl size
  · obtain ⟨k, hk, -⟩ := grownSize_eq (Nat.lt_of_lt_of_le h (Nat.le_max_left size 1)) i
    rw [hk]
    exact Nat.le_trans (Nat.le_max_left size 1) (Nat.le_mul_of_pos_right _ (Nat.two_pow_pos k))

/-! ## Places of the tables -/

theorem length_resize (table : List UInt64) (size : Nat) : (resize table size).length = size := by
  simp only [resize, List.length_append, List.length_take, List.length_replicate]
  omega

theorem place_resize {table : List UInt64} {size : Nat} (h : table.length ≤ size) (i : Nat) :
    place (resize table size) i = place table i := by
  rw [resize, List.take_of_length_le h, place, place, List.getElem?_append]
  split
  case isTrue => rfl
  case isFalse hi =>
    rw [List.getElem?_eq_none (Nat.le_of_not_lt hi), List.getElem?_replicate]
    split <;> rfl

theorem place_modify {table : List UInt64} {i : Nat} (h : i < table.length) (f : UInt64 → UInt64) (j : Nat) :
    place (table.modify i f) j = if i = j then f (place table j) else place table j := by
  rw [place, place, List.getElem?_modify]
  by_cases hij : i = j
  · subst hij
    simp [h]
  · simp [hij]

theorem update?_eq {table : List UInt64} {i : Nat} (h : i < table.length) (f : UInt64 → UInt64) :
    update? table i f = some (table.modify i f) := by
  have hi := List.getElem?_eq_getElem h
  rw [update?, hi, Option.map_some, Context.set_eq_modify hi f]

/-! ## An observation -/

/-- Room is made in all three tables, and what they hold stays. -/
theorem reserve_places {r : Record} (hpos : 0 < r.counts.length) (htotals : r.totals.length = r.counts.length)
    (hmaxima : r.maxima.length = r.counts.length) (i : Nat) :
    (r.reserve i).counts.length = roomFor r.counts.length i ∧
      (r.reserve i).totals.length = roomFor r.counts.length i ∧
      (r.reserve i).maxima.length = roomFor r.counts.length i ∧
      place (r.reserve i).counts = place r.counts ∧ place (r.reserve i).totals = place r.totals ∧
      place (r.reserve i).maxima = place r.maxima := by
  have hle := le_roomFor hpos i
  unfold reserve roomFor at *
  split
  case isTrue hi => exact ⟨rfl, htotals, hmaxima, rfl, rfl, rfl⟩
  case isFalse hi =>
    rw [if_neg hi] at hle
    exact ⟨length_resize .., length_resize .., length_resize .., funext (place_resize hle),
      funext (place_resize (htotals ▸ hle)), funext (place_resize (hmaxima ▸ hle))⟩

theorem observe_counter {r : Record} {m : Metric} (hc : m.id < (r.reserve m.id).counts.length) :
    r.observe (.counter m) =
      ({ r.reserve m.id with counts := (r.reserve m.id).counts.modify m.id (satAdd · 1) }, true) := by
  show (r.reserve m.id).steps [(·.countAt? m.id)] = _
  rw [steps, countAt?, update?_eq hc]
  rfl

theorem observe_event {r : Record} {m : Metric} (hc : m.id < (r.reserve m.id).counts.length)
    (ht : m.id < (r.reserve m.id).totals.length) (hm : m.id < (r.reserve m.id).maxima.length) (value : UInt64) :
    r.observe (.event m value) =
      ({ r.reserve m.id with
          counts := (r.reserve m.id).counts.modify m.id (satAdd · 1)
          totals := (r.reserve m.id).totals.modify m.id (satAdd · value)
          maxima := (r.reserve m.id).maxima.modify m.id (max · value) }, true) := by
  show (r.reserve m.id).steps [(·.countAt? m.id), (·.addAt? m.id value), (·.raiseAt? m.id value)] = _
  simp only [steps, countAt?, addAt?, raiseAt?, update?_eq hc, update?_eq ht, update?_eq hm, Option.map_some]

/-! ## What a record holds -/

/-- A record holds these observations. -/
structure Holds (r : Record) (os : List Observation) : Prop where
  fits : Fits os r.counts.length
  totals_length : r.totals.length = r.counts.length
  maxima_length : r.maxima.length = r.counts.length
  counts : ∀ i, (place r.counts i).toNat = clampWord (observationsAt i os).length
  totals : ∀ i, (place r.totals i).toNat = clampWord (valuesAt i os).sum
  maxima : ∀ i, (place r.maxima i).toNat = (valuesAt i os).foldl max 0

theorem holds_create (computer : ComputerId) : (create computer).Holds [] := by
  have hplace : ∀ i, (place (List.replicate initialCapacity 0) i).toNat = 0 := by
    intro i
    rw [place, List.getElem?_replicate]
    split <;> rfl
  have hlength : (List.replicate initialCapacity (0 : UInt64)).length = initialCapacity := List.length_replicate
  exact ⟨hlength.symm ▸ fits_nil, rfl, rfl, hplace, hplace, hplace⟩

section Places

variable {table : List UInt64} {os : List Observation}

theorem place_count (h : ∀ i, (place table i).toNat = clampWord (observationsAt i os).length) {o : Observation}
    (ho : o.metric.id < table.length) (i : Nat) :
    (place (table.modify o.metric.id (satAdd · 1)) i).toNat = clampWord (observationsAt i (os ++ [o])).length := by
  rw [place_modify ho, observationsAt_concat]
  split
  · rw [toNat_satAdd, h, clampWord_clampWord_add, List.length_append]
    rfl
  · rw [List.append_nil]
    exact h i

theorem place_sum (h : ∀ i, (place table i).toNat = clampWord (valuesAt i os).sum) {m : Metric}
    (hm : m.id < table.length) (value : UInt64) (i : Nat) :
    (place (table.modify m.id (satAdd · value)) i).toNat = clampWord (valuesAt i (os ++ [.event m value])).sum := by
  rw [place_modify hm, valuesAt_event]
  split
  · rw [toNat_satAdd, h, clampWord_clampWord_add, List.sum_append, List.sum_singleton]
  · rw [List.append_nil]
    exact h i

theorem place_max (h : ∀ i, (place table i).toNat = (valuesAt i os).foldl max 0) {m : Metric}
    (hm : m.id < table.length) (value : UInt64) (i : Nat) :
    (place (table.modify m.id (max · value)) i).toNat = (valuesAt i (os ++ [.event m value])).foldl max 0 := by
  rw [place_modify hm, valuesAt_event]
  split
  · rw [UInt64.toNat_max, h, List.foldl_append]
    rfl
  · rw [List.append_nil]
    exact h i

end Places

/-- An observation is completed, and the record holds it too. -/
theorem Holds.observe {r : Record} {os : List Observation} (h : r.Holds os) (o : Observation) :
    (r.observe o).2 = true ∧ (r.observe o).1.Holds (os ++ [o]) ∧ r.capacity ≤ (r.observe o).1.capacity := by
  obtain ⟨hcl, htl, hml, hc, ht, hm⟩ := reserve_places h.fits.pos h.totals_length h.maxima_length o.metric.id
  have hroom := roomFor_gt h.fits o
  have hlength : ((r.reserve o.metric.id).counts.modify o.metric.id (satAdd · 1)).length =
      roomFor r.counts.length o.metric.id := (List.length_modify ..).trans hcl
  have hfits := hlength ▸ h.fits.grow o
  have hle := hlength ▸ le_roomFor h.fits.pos o.metric.id
  have hcount := place_count (fun i => (congrArg UInt64.toNat (congrFun hc i)).trans (h.counts i)) (hcl ▸ hroom)
  have htotals := fun i => (congrArg UInt64.toNat (congrFun ht i)).trans (h.totals i)
  have hmaxima := fun i => (congrArg UInt64.toNat (congrFun hm i)).trans (h.maxima i)
  cases o with
  | counter m =>
    rw [observe_counter (hcl ▸ hroom)]
    exact ⟨rfl, ⟨hfits, htl.trans hlength.symm, hml.trans hlength.symm, hcount,
      fun i => valuesAt_counter i os m ▸ htotals i, fun i => valuesAt_counter i os m ▸ hmaxima i⟩, hle⟩
  | event m value =>
    rw [observe_event (hcl ▸ hroom) (htl ▸ hroom) (hml ▸ hroom)]
    exact ⟨rfl, ⟨hfits, (List.length_modify ..).trans (htl.trans hlength.symm),
      (List.length_modify ..).trans (hml.trans hlength.symm), hcount, place_sum htotals (htl ▸ hroom) value,
      place_max hmaxima (hml ▸ hroom) value⟩, hle⟩

theorem replay_holds (computer : ComputerId) (os : List Observation) : (replay computer os).Holds os := by
  induction os using List.reverseRecOn with
  | nil => exact holds_create computer
  | append_singleton os o ih =>
    rw [replay_concat]
    exact (ih.observe o).2.1

/-- The tables of a record have the size that these observations need. -/
structure Sized (record : Record) (os : List Observation) : Prop where
  totals : record.totals.length = record.capacity
  maxima : record.maxima.length = record.capacity
  /-- The least size that a new record's can be doubled to and that is above every number. -/
  fits : Fits os record.capacity
  /-- Another observation finds room in all of them, and they do not become smaller. -/
  completes : ∀ o, (record.observe o).2 = true ∧ record.capacity ≤ (record.observe o).1.capacity

/-- A record tells what these observations say of a metric. -/
structure Tells (record : Record) (m : Metric) (os : List Observation) : Prop where
  /-- A counter tells how often it was observed, whichever way it is read. -/
  counter : m.kind.isCounter = true → ∀ a, (record.get m a).toNat = clampWord (observationsOf m os).length
  sum : m.kind.isCounter = false → (record.get m .none).toNat = clampWord (valuesOf m os).sum
  count : m.kind.isCounter = false → (record.get m .count).toNat = clampWord (valuesOf m os).length
  /-- The mean is that of the sum and the count as they are told, and zero if there are no values. -/
  mean : m.kind.isCounter = false →
    (record.get m .avg).toNat = clampWord (valuesOf m os).sum / clampWord (valuesOf m os).length
  largest : m.kind.isCounter = false → (record.get m .max).toNat = (valuesOf m os).foldl max 0

theorem Holds.sized {r : Record} {os : List Observation} (h : r.Holds os) : r.Sized os :=
  ⟨h.totals_length, h.maxima_length, h.fits, fun o => ⟨(h.observe o).1, (h.observe o).2.2⟩⟩

theorem toNat_mean (total count : UInt64) : (mean total count).toNat = total.toNat / count.toNat := by
  unfold mean
  split
  case isTrue h => simp [h]
  case isFalse => exact UInt64.toNat_div total count

theorem Holds.tells {record : Record} {os : List Observation} (h : record.Holds os) {r : Registry} (hr : r.Numbered)
    (hos : ∀ o ∈ os, o.Of r) {m : Metric} (hm : m ∈ r.metrics) : record.Tells m os := by
  have hcount : (place record.counts m.id).toNat = clampWord (observationsOf m os).length := by
    rw [h.counts, observationsAt_id hr hos hm]
  have htotal : (place record.totals m.id).toNat = clampWord (valuesOf m os).sum := by
    rw [h.totals, valuesAt_id hr hos hm]
  have hlargest : (place record.maxima m.id).toNat = (valuesOf m os).foldl max 0 := by
    rw [h.maxima, valuesAt_id hr hos hm]
  have hvalued := fun hkind => length_valuesOf (m := m) hos hkind
  constructor
  case counter =>
    intro hkind a
    simpa [get, hkind] using hcount
  case sum =>
    intro hkind
    simpa [get, hkind] using htotal
  case count =>
    intro hkind
    rw [hvalued hkind]
    simpa [get, hkind] using hcount
  case mean =>
    intro hkind
    rw [hvalued hkind, ← htotal, ← hcount, ← toNat_mean]
    simp [get, hkind]
  case largest =>
    intro hkind
    simpa [get, hkind] using hlargest

/-- Whatever is observed of the metrics of a registry, in whichever order, a new record tells of each metric what was
observed of it, and never lacks room. -/
theorem replay_tells (calls : List RegistryCall) (computer : ComputerId) {os : List Observation}
    (hos : ∀ o ∈ os, o.Of (Registry.run {} calls)) :
    (∀ before, before <+: os → (replay computer before).Sized before) ∧
      ∀ m ∈ (Registry.run {} calls).metrics, (replay computer os).Tells m os := by
  have hnumbered := Registry.numbered_empty.run calls
  exact ⟨fun before _ => (replay_holds computer before).sized,
    fun m hm => (replay_holds computer os).tells hnumbered hos hm⟩

/-- The standard metrics, and two of the host. -/
def hostCalls : List RegistryCall :=
  [.registerStandard, .register "turtle_moves" .counter, .register "bytes_sent" (.event .bytes)]

def turtleMoves : Metric := ⟨7, "turtle_moves", .counter⟩

def bytesSent : Metric := ⟨8, "bytes_sent", .event .bytes⟩

/-- The sum passes the largest word, and the second observation is the first that needs more room. -/
def overflowing : List Observation :=
  [.counter turtleMoves, .event bytesSent 18446744073709551615, .counter turtleMoves, .event bytesSent 7]

/-- The mean is that of the largest word. -/
theorem tells_overflowing : (∀ o ∈ overflowing, o.Of (Registry.run {} hostCalls)) ∧
    ((replay ⟨1⟩ overflowing).capacity = 16 ∧ (replay ⟨1⟩ overflowing).get bytesSent .avg = 9223372036854775807) ∧
    (∀ before, before <+: overflowing → (replay ⟨1⟩ before).Sized before) ∧
    ∀ m ∈ (Registry.run {} hostCalls).metrics, (replay ⟨1⟩ overflowing).Tells m overflowing := by
  have hos : ∀ o ∈ overflowing, o.Of (Registry.run {} hostCalls) := by decide +kernel
  exact ⟨hos, by decide +kernel, replay_tells hostCalls ⟨1⟩ hos⟩

end Record

end FairShare.Metrics
