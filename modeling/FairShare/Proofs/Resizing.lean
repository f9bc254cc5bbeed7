import FairShare.Json.Reader
import FairShare.Proofs.Readings

/-!
# Tables of different sizes

The tables of a record have one size, as long as nothing but observations made them. Those of a record that was read from
a document may have any sizes, and then an observation can do harm in two ways. Where it makes room, it brings all tables
to a size that only the first of them decides, and so cuts off what another holds beyond it. Where the first table has
room and another has not, it breaks off after it has changed those before. It does so exactly then.
-/

namespace FairShare.Metrics.Record

/-- The tables of a record. -/
inductive Table where
  /-- How often each metric was observed. -/
  | counts
  /-- The sum of each metric's values. -/
  | totals
  /-- The largest of each metric's values. -/
  | maxima
  deriving DecidableEq

/-- A table of a record. -/
def table (r : Record) : Table → List UInt64
  | .counts => r.counts
  | .totals => r.totals
  | .maxima => r.maxima

/-- What an observation makes of the entry of its metric in a table. -/
def entry : Observation → Table → UInt64 → UInt64
  | _, .counts => (satAdd · 1)
  | .counter _, _ => id
  | .event _ value, .totals => (satAdd · value)
  | .event _ value, .maxima => (max · value)

/-- The size that all tables get if the first has no room for a metric. -/
def sizeFor (r : Record) (i : Nat) : Nat := grownSize (max r.counts.length 1) i

/-- Making room for a metric cuts a table off. -/
def Cuts (r : Record) (i : Nat) : Prop := r.counts.length ≤ i ∧ ∃ t, r.sizeFor i < (r.table t).length

/-- The first table has room for an event, and another has not. -/
def Breaks (r : Record) : Observation → Prop
  | .counter _ => False
  | .event m _ => m.id < r.counts.length ∧ (r.totals.length ≤ m.id ∨ r.maxima.length ≤ m.id)

/-- The tables have one size. -/
structure Even (r : Record) : Prop where
  totals : r.totals.length = r.counts.length
  maxima : r.maxima.length = r.counts.length

variable {r : Record}

/-! ## Making room -/

theorem sizeFor_gt (r : Record) (i : Nat) : i < r.sizeFor i := by
  obtain ⟨k, hk, hlt, -⟩ := grownSize_eq (Nat.lt_of_lt_of_le Nat.zero_lt_one (Nat.le_max_right r.counts.length 1)) i
  rw [sizeFor, hk]
  exact hlt

theorem getElem?_resize (table : List UInt64) (size j : Nat) :
    (resize table size)[j]? = if j < size then some (place table j) else none := by
  rw [resize, place, List.getElem?_append, List.length_take, List.getElem?_take, List.getElem?_replicate]
  grind

theorem reserve_of_lt {i : Nat} (h : i < r.counts.length) : r.reserve i = r := if_pos h

theorem table_reserve {i : Nat} (h : r.counts.length ≤ i) (t : Table) :
    (r.reserve i).table t = resize (r.table t) (r.sizeFor i) := by
  rw [reserve, if_neg (Nat.not_lt.2 h)]
  cases t <;> rfl

/-! ## An observation -/

theorem modify_of_le {table : List UInt64} {i : Nat} (h : table.length ≤ i) (f : UInt64 → UInt64) :
    table.modify i f = table := by
  rw [List.modify_eq_self]
  exact h

theorem update?_eq_none {table : List UInt64} {i : Nat} (h : table.length ≤ i) (f : UInt64 → UInt64) :
    update? table i f = none := by
  rw [update?, List.getElem?_eq_none h]
  rfl

/-- An observation that breaks off was counted, and its value was added if there was room for it. -/
theorem observe_of_breaks {o : Observation} (h : r.Breaks o) :
    r.observe o =
      ({ r with
          counts := r.counts.modify o.metric.id (entry o .counts)
          totals := r.totals.modify o.metric.id (entry o .totals) }, false) := by
  cases o with
  | counter m => exact h.elim
  | event m value =>
    obtain ⟨hcounts, hshort⟩ := h
    show (r.reserve m.id).steps [(·.countAt? m.id), (·.addAt? m.id value), (·.raiseAt? m.id value)] = _
    rw [reserve_of_lt hcounts]
    simp only [steps, countAt?, update?_eq hcounts, Option.map_some, addAt?]
    by_cases htotals : m.id < r.totals.length
    · have hmaxima : r.maxima.length ≤ m.id := hshort.resolve_left (Nat.not_le.2 htotals)
      simp only [update?_eq htotals, Option.map_some, raiseAt?, update?_eq_none hmaxima, Option.map_none]
      rfl
    · have hle := Nat.le_of_not_lt htotals
      simp only [update?_eq_none hle, Option.map_none]
      rw [Observation.metric, modify_of_le hle]
      rfl

/-- Any other is completed in all tables. -/
theorem observe_of_not_breaks {o : Observation} (h : ¬r.Breaks o) :
    (r.observe o).2 = true ∧ ∀ t, (r.observe o).1.table t =
      ((r.reserve o.metric.id).table t).modify o.metric.id (entry o t) := by
  have hroom : ∀ t, o.metric.id < r.counts.length ∨ o.metric.id < ((r.reserve o.metric.id).table t).length := by
    intro t
    by_cases hlt : o.metric.id < r.counts.length
    · exact .inl hlt
    · right
      rw [table_reserve (Nat.le_of_not_lt hlt), length_resize]
      exact r.sizeFor_gt _
  have hcounts : o.metric.id < (r.reserve o.metric.id).counts.length := by
    refine (hroom .counts).elim (fun hlt => ?_) id
    rw [reserve_of_lt hlt]
    exact hlt
  cases o with
  | counter m =>
    rw [observe_counter (m := m) hcounts]
    refine ⟨rfl, fun t => ?_⟩
    cases t
    case counts => rfl
    case totals => exact (List.modify_id ..).symm
    case maxima => exact (List.modify_id ..).symm
  | event m value =>
    have hshort : m.id < r.counts.length → m.id < r.totals.length ∧ m.id < r.maxima.length := by
      intro hlt
      by_contra hshort
      exact h ⟨hlt, by omega⟩
    have hothers : m.id < (r.reserve m.id).totals.length ∧ m.id < (r.reserve m.id).maxima.length := by
      by_cases hlt : m.id < r.counts.length
      · rw [reserve_of_lt hlt]
        exact hshort hlt
      · exact ⟨(hroom .totals).resolve_left hlt, (hroom .maxima).resolve_left hlt⟩
    rw [observe_event (m := m) hcounts hothers.1 hothers.2]
    refine ⟨rfl, fun t => ?_⟩
    cases t <;> rfl

theorem completed_iff (o : Observation) : (r.observe o).2 = true ↔ ¬r.Breaks o := by
  constructor
  · intro htrue hbreaks
    rw [observe_of_breaks hbreaks] at htrue
    cases htrue
  · exact fun h => (observe_of_not_breaks h).1

/-- If room was there for the first table, the others stay of their size too. -/
theorem table_observe_of_lt {o : Observation} (h : o.metric.id < r.counts.length) (t : Table) :
    ∃ f, (r.observe o).1.table t = (r.table t).modify o.metric.id f := by
  by_cases hbreaks : r.Breaks o
  · rw [observe_of_breaks hbreaks]
    cases t
    case counts => exact ⟨_, rfl⟩
    case totals => exact ⟨_, rfl⟩
    case maxima => exact ⟨id, (List.modify_id ..).symm⟩
  · have htable := (observe_of_not_breaks hbreaks).2 t
    rw [reserve_of_lt h] at htable
    exact ⟨_, htable⟩

theorem table_observe_of_le {o : Observation} (h : r.counts.length ≤ o.metric.id) (t : Table) :
    (r.observe o).1.table t =
      (resize (r.table t) (r.sizeFor o.metric.id)).modify o.metric.id (entry o t) := by
  have hbreaks : ¬r.Breaks o := by
    intro hbreaks
    cases o with
    | counter m => exact hbreaks
    | event m value => exact Nat.not_lt.2 h hbreaks.1
  rw [(observe_of_not_breaks hbreaks).2 t, table_reserve h]

/-! ## What is kept -/

/-- No table becomes shorter. -/
def KeepsLengths (r : Record) (o : Observation) : Prop :=
  ∀ t, (r.table t).length ≤ ((r.observe o).1.table t).length

/-- What was recorded of other metrics stays as it is. -/
def KeepsOthers (r : Record) (o : Observation) : Prop :=
  ∀ t j v, j ≠ o.metric.id → (r.table t)[j]? = some v → ((r.observe o).1.table t)[j]? = some v

/-- An observation that is not completed changes nothing. -/
def KeepsWhole (r : Record) (o : Observation) : Prop := (r.observe o).2 = false → (r.observe o).1 = r

/-- The data of a record outlast an observation. -/
structure Keeps (r : Record) (o : Observation) : Prop where
  lengths : r.KeepsLengths o
  others : r.KeepsOthers o
  whole : r.KeepsWhole o

theorem keepsLengths_iff (o : Observation) : r.KeepsLengths o ↔ ¬r.Cuts o.metric.id := by
  by_cases h : o.metric.id < r.counts.length
  · refine iff_of_true (fun t => ?_) fun hcuts => Nat.not_lt.2 hcuts.1 h
    obtain ⟨f, hf⟩ := table_observe_of_lt h t
    rw [hf, List.length_modify]
  · have hle := Nat.le_of_not_lt h
    simp only [KeepsLengths, table_observe_of_le hle, List.length_modify, length_resize, Cuts, hle, true_and,
      not_exists, Nat.not_lt]

/-- An entry of another metric is lost where a table is cut off, and nowhere else. -/
theorem keepsOthers_iff (o : Observation) : r.KeepsOthers o ↔ ¬r.Cuts o.metric.id := by
  constructor
  · rintro hkeeps ⟨hle, t, hlt⟩
    -- the last entry of the table is beyond the new size, and so beyond the metric's own
    have hgt := r.sizeFor_gt o.metric.id
    have hlast : (r.table t).length - 1 < (r.table t).length := by omega
    have hne : (r.table t).length - 1 ≠ o.metric.id := by omega
    have hkept := hkeeps t _ _ hne (List.getElem?_eq_getElem hlast)
    rw [table_observe_of_le hle, List.getElem?_modify_ne _ _ (Ne.symm hne), getElem?_resize, if_neg (by omega)] at hkept
    cases hkept
  · intro hcuts t j v hj hv
    have hlength := (List.getElem?_eq_some_iff.1 hv).1
    by_cases h : o.metric.id < r.counts.length
    · obtain ⟨f, hf⟩ := table_observe_of_lt h t
      rw [hf, List.getElem?_modify_ne _ _ (Ne.symm hj)]
      exact hv
    · have hle := Nat.le_of_not_lt h
      have hfits : ¬r.sizeFor o.metric.id < (r.table t).length := fun hlt => hcuts ⟨hle, t, hlt⟩
      rw [table_observe_of_le hle, List.getElem?_modify_ne _ _ (Ne.symm hj), getElem?_resize, if_pos (by omega), place, hv]
      rfl

theorem modify_eq_self_iff {table : List UInt64} {i : Nat} {f : UInt64 → UInt64} :
    table.modify i f = table ↔ ∀ x, table[i]? = some x → f x = x := by
  constructor
  · intro heq x hx
    have hi := List.getElem?_modify_eq f i table
    rw [heq, hx] at hi
    exact (Option.some.inj hi).symm
  · intro hfix
    refine List.ext_getElem? fun j => ?_
    by_cases hij : i = j
    · subst hij
      rw [List.getElem?_modify_eq]
      cases hi : table[i]? with
      | none => rfl
      | some x => exact congrArg some (hfix x hi)
    · rw [List.getElem?_modify_ne _ _ hij]

theorem satAdd_one_eq_self_iff {x : UInt64} : satAdd x 1 = x ↔ x = .ofNat maxWord := by
  rw [← UInt64.toNat_inj, ← UInt64.toNat_inj, toNat_satAdd]
  have hx := x.toNat_lt
  have hmax : (UInt64.ofNat maxWord).toNat = maxWord := rfl
  have hone : (1 : UInt64).toNat = 1 := rfl
  rw [hmax, hone, clampWord]
  unfold maxWord
  omega

/-- What becomes of the data of a record that takes in an observation. -/
structure Takes (r : Record) (o : Observation) : Prop where
  /-- Nothing is cut off, unless making room does so. -/
  lengths : r.KeepsLengths o ↔ ¬r.Cuts o.metric.id
  others : r.KeepsOthers o ↔ ¬r.Cuts o.metric.id
  completed : (r.observe o).2 = true ↔ ¬r.Breaks o
  /-- Where it breaks off it was counted, and its value was added if there was room. -/
  broken : r.Breaks o → (r.observe o).1 =
    { r with
      counts := r.counts.modify o.metric.id (entry o .counts)
      totals := r.totals.modify o.metric.id (entry o .totals) }
  /-- So nothing has changed only if the count was the largest word, and the sum that or the value zero. -/
  whole : r.KeepsWhole o ↔ (r.Breaks o → r.counts[o.metric.id]? = some (.ofNat maxWord) ∧
    ∀ x, r.totals[o.metric.id]? = some x → entry o .totals x = x)
  /-- If the tables have one size, all is kept, and they go on to have one size. -/
  even : r.Even → r.Keeps o ∧ (r.observe o).2 = true ∧ (r.observe o).1.Even

theorem keepsWhole_iff (o : Observation) :
    r.KeepsWhole o ↔ (r.Breaks o → r.counts[o.metric.id]? = some (.ofNat maxWord) ∧
      ∀ x, r.totals[o.metric.id]? = some x → entry o .totals x = x) := by
  have hfalse : (r.observe o).2 = false ↔ r.Breaks o := by
    rw [← Bool.not_eq_true, completed_iff, not_not]
  rw [KeepsWhole, hfalse]
  refine forall_congr' fun hbreaks => ?_
  have hcounts : o.metric.id < r.counts.length := by
    cases o with
    | counter m => exact hbreaks.elim
    | event m value => exact hbreaks.1
  have hcount : (∀ x, r.counts[o.metric.id]? = some x → entry o .counts x = x) ↔
      r.counts[o.metric.id]? = some (.ofNat maxWord) := by
    rw [List.getElem?_eq_getElem hcounts, Option.some.injEq]
    refine ⟨fun h => ?_, ?_⟩
    · exact satAdd_one_eq_self_iff.1 (h _ rfl)
    · rintro h x hx
      exact satAdd_one_eq_self_iff.2 ((Option.some.inj hx).symm.trans h)
  rw [observe_of_breaks hbreaks, ← hcount, ← modify_eq_self_iff, ← modify_eq_self_iff]
  constructor
  · exact fun h => ⟨congrArg (·.counts) h, congrArg (·.totals) h⟩
  · exact fun h => Record.ext rfl h.1 h.2 rfl

theorem Even.keeps (h : r.Even) (o : Observation) :
    r.Keeps o ∧ (r.observe o).2 = true ∧ (r.observe o).1.Even := by
  have hlength : ∀ t, (r.table t).length = r.counts.length := by
    intro t
    cases t
    case counts => rfl
    case totals => exact h.totals
    case maxima => exact h.maxima
  have hcuts : ¬r.Cuts o.metric.id := by
    rintro ⟨hle, t, hlt⟩
    have hgt := r.sizeFor_gt o.metric.id
    rw [hlength] at hlt
    omega
  have hbreaks : ¬r.Breaks o := by
    intro hbreaks
    cases o with
    | counter m => exact hbreaks
    | event m value =>
      obtain ⟨hlt, hshort⟩ := hbreaks
      rw [h.totals, h.maxima] at hshort
      omega
  have hlater : ∀ t, ((r.observe o).1.table t).length = (r.observe o).1.counts.length := by
    intro t
    show _ = ((r.observe o).1.table .counts).length
    by_cases hlt : o.metric.id < r.counts.length
    · obtain ⟨f, hf⟩ := table_observe_of_lt hlt t
      obtain ⟨g, hg⟩ := table_observe_of_lt hlt .counts
      rw [hf, hg, List.length_modify, List.length_modify, hlength]
      rfl
    · have hle := Nat.le_of_not_lt hlt
      rw [table_observe_of_le hle, table_observe_of_le hle, List.length_modify, List.length_modify, length_resize,
        length_resize]
  refine ⟨⟨(keepsLengths_iff o).2 hcuts, (keepsOthers_iff o).2 hcuts, ?_⟩, (completed_iff o).2 hbreaks,
    hlater .totals, hlater .maxima⟩
  exact (keepsWhole_iff o).2 fun h => absurd h hbreaks

/-- Whatever tables a record has, an observation keeps its data unless it cuts a table off or breaks off. -/
theorem observe_takes (r : Record) (o : Observation) : r.Takes o where
  lengths := keepsLengths_iff o
  others := keepsOthers_iff o
  completed := completed_iff o
  broken h := congrArg Prod.fst (observe_of_breaks h)
  whole := keepsWhole_iff o
  even h := h.keeps o

/-- A record in a document, with tables of one, no and three entries. -/
def unevenText : String := "\x7b\"computer\":1,\"counts\":[0],\"totals\":[],\"max\":[3,4,5]\x7d"

/-- The record that it is read as. -/
def uneven : Record := ⟨⟨1⟩, [0], [], [3, 4, 5]⟩

/-- The first event is counted before it breaks off, and the second cuts off what a third metric has. -/
theorem uneven_loses :
    (Json.read unevenText).bind ofJson? = some uneven ∧
      ¬uneven.KeepsWhole (.event ⟨0, "reads", .event .bytes⟩ 5) ∧
      ¬uneven.KeepsLengths (.event ⟨1, "writes", .event .bytes⟩ 7) ∧
      ¬uneven.KeepsOthers (.event ⟨1, "writes", .event .bytes⟩ 7) := by
  refine ⟨by decide +kernel, ?_, ?_, ?_⟩
  · intro hwhole
    exact absurd (hwhole (by decide +kernel)) (by decide +kernel)
  · intro hlengths
    exact absurd (hlengths .maxima) (by decide +kernel)
  · intro hothers
    exact absurd (hothers .maxima 2 5 (by decide) (by decide +kernel)) (by decide +kernel)

end FairShare.Metrics.Record
