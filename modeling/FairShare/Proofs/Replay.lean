import FairShare.Proofs.Registration
import Mathlib.Data.List.DropRight
import Mathlib.Data.List.Nodup

/-!
# What a keeper of records has heard

A keeper finds its records through a table of places. The table is right after any sequence of calls: it has
the place of each record and no other. So what the keeper holds can be told from what it heard since it was
last cleared: who is listed, in which order, and what is in each record.
-/

namespace FairShare.Metrics

theorem Record.steps_computer {fs : List (Record → Option Record)}
    (h : ∀ f ∈ fs, ∀ r r', f r = some r' → r'.computer = r.computer) (r : Record) :
    (r.steps fs).1.computer = r.computer := by
  induction fs generalizing r with
  | nil => rfl
  | cons f fs ih =>
    unfold steps
    cases hf : f r with
    | none => rfl
    | some r' =>
      have hrest := ih (fun g hg => h g (List.mem_cons_of_mem _ hg)) r'
      exact hrest.trans (h f (List.mem_cons_self ..) r r' hf)

@[simp] theorem Record.observe_computer (r : Record) (o : Observation) : (r.observe o).1.computer = r.computer := by
  have hreserve : (r.reserve o.metric.id).computer = r.computer := by
    unfold reserve
    split <;> rfl
  unfold observe
  cases o with
  | counter m =>
    refine (steps_computer ?_ _).trans hreserve
    intro f hf r r' hr
    obtain rfl : f = _ := List.mem_singleton.1 hf
    obtain ⟨counts, -, rfl⟩ := Option.map_eq_some_iff.1 hr
    rfl
  | event m value =>
    refine (steps_computer ?_ _).trans hreserve
    intro f hf r r' hr
    simp only [List.mem_cons, List.not_mem_nil, or_false] at hf
    rcases hf with rfl | rfl | rfl <;>
    · obtain ⟨table, -, rfl⟩ := Option.map_eq_some_iff.1 hr
      rfl

/-- What a sequence of observations makes of a new record. -/
def Record.replay (computer : ComputerId) (os : List Observation) : Record :=
  os.foldl (fun r o => (r.observe o).1) (Record.create computer)

theorem Record.replay_concat (computer : ComputerId) (os : List Observation) (o : Observation) :
    replay computer (os ++ [o]) = ((replay computer os).observe o).1 := by
  simp [replay]

theorem lookup_cons_ite {α β : Type} [BEq α] [LawfulBEq α] [DecidableEq α] (key : α) (value : β) (table : List (α × β))
    (a : α) : ((key, value) :: table).lookup a = if a = key then some value else table.lookup a := by
  rw [List.lookup_cons]
  by_cases ha : a = key
  · simp [ha]
  · simp [ha, beq_eq_false_iff_ne.2 ha]

namespace RecordKeeper

variable {k : RecordKeeper}

/-! ## The table of places -/

/-- The computers that have a record, in order. -/
def computers (k : RecordKeeper) : List ComputerId := k.records.map (·.computer)

/-- The table has the place of every record, and none besides. -/
def Indexed (k : RecordKeeper) : Prop :=
  ∀ computer i, k.place? computer = some i ↔ k.computers[i]? = some computer

theorem indexed_clear (k : RecordKeeper) : k.clear.Indexed := by
  intro computer i
  simp [clear, place?, computers]

theorem Indexed.nodup (h : k.Indexed) : k.computers.Nodup := by
  rw [List.nodup_iff_pairwise_ne, List.pairwise_iff_getElem]
  intro i j hi hj hij heq
  have hplace := (h _ i).2 (List.getElem?_eq_getElem hi)
  rw [heq, (h _ j).2 (List.getElem?_eq_getElem hj)] at hplace
  exact absurd (Option.some.inj hplace) (by omega)

theorem Indexed.place?_eq_none (h : k.Indexed) {computer : ComputerId} :
    k.place? computer = none ↔ computer ∉ k.computers := by
  rw [List.mem_iff_getElem?, Option.eq_none_iff_forall_not_mem, not_exists]
  exact forall_congr' fun i => not_congr (h computer i)

/-- Whoever is looked up is found in its own record. -/
theorem Indexed.get?_eq_some (h : k.Indexed) {computer : ComputerId} {r : Record} :
    k.get? computer = some r ↔ r ∈ k.records ∧ r.computer = computer := by
  rw [get?, Option.bind_eq_some_iff]
  constructor
  · rintro ⟨i, hi, hr⟩
    have hc := (h computer i).1 hi
    rw [computers, List.getElem?_map, hr] at hc
    exact ⟨List.mem_of_getElem? hr, by simpa using hc⟩
  · rintro ⟨hr, rfl⟩
    obtain ⟨i, hi⟩ := List.mem_iff_getElem?.1 hr
    exact ⟨i, (h _ i).2 (by simp [computers, hi]), hi⟩

/-! ## An observation is taken in -/

theorem computers_modify (k : RecordKeeper) (i : Nat) (o : Observation) :
    (k.records.modify i fun r => (r.observe o).1).map (·.computer) = k.computers := by
  refine List.ext_getElem? fun j => ?_
  rw [computers, List.getElem?_map, List.getElem?_map, List.getElem?_modify]
  split
  case isTrue => cases k.records[j]? <;> simp
  case isFalse => simp

theorem record_of_place {computer : ComputerId} {i : Nat} (h : k.place? computer = some i) (o : Observation) :
    k.record computer o = { k with records := k.records.modify i fun r => (r.observe o).1 } := by
  simp [record, enter, h]

theorem record_of_new {computer : ComputerId} (h : k.place? computer = none) (o : Observation) :
    k.record computer o = { k with
      records := k.records ++ [((Record.create computer).observe o).1]
      places := (computer, k.records.length) :: k.places } := by
  have hlast : (k.records ++ [Record.create computer]).modify k.records.length (fun r => (r.observe o).1) =
      k.records ++ [((Record.create computer).observe o).1] := by
    refine List.ext_getElem? fun j => ?_
    rw [List.getElem?_modify, List.getElem?_append, List.getElem?_append]
    grind
  simp [record, enter, h, hlast]

theorem Indexed.computers_record (h : k.Indexed) (computer : ComputerId) (o : Observation) :
    (k.record computer o).computers = if computer ∈ k.computers then k.computers else k.computers ++ [computer] := by
  cases hp : k.place? computer with
  | none =>
    rw [if_neg (h.place?_eq_none.1 hp), record_of_new hp]
    simp [computers, Record.create]
  | some i =>
    have hmem := List.mem_of_getElem? ((h computer i).1 hp)
    rw [if_pos hmem, record_of_place hp]
    exact computers_modify k i o

theorem Indexed.record (h : k.Indexed) (computer : ComputerId) (o : Observation) :
    (k.record computer o).Indexed := by
  intro d j
  rw [h.computers_record]
  cases hp : k.place? computer with
  | none =>
    have hnew := h.place?_eq_none.1 hp
    have hplace : (k.record computer o).place? d =
        if d = computer then some k.computers.length else k.place? d := by
      rw [record_of_new hp, place?, lookup_cons_ite, computers, List.length_map]
      rfl
    rw [hplace, if_neg hnew, List.getElem?_append]
    have hd := h d j
    by_cases heq : d = computer
    · subst heq
      grind
    · grind
  | some i =>
    rw [if_pos (List.mem_of_getElem? ((h computer i).1 hp)), record_of_place hp]
    exact h d j

/-- After an observation every record is as before, but for that of the computer that made it. -/
theorem Indexed.mem_record (h : k.Indexed) {computer : ComputerId} {o : Observation} {r : Record}
    (hr : r ∈ (k.record computer o).records) :
    r ∈ k.records ∧ r.computer ≠ computer ∨
      ∃ r₀, (r₀ ∈ k.records ∧ r₀.computer = computer ∨
        computer ∉ k.computers ∧ r₀ = Record.create computer) ∧ r = (r₀.observe o).1 := by
  cases hp : k.place? computer with
  | none =>
    have hnew := h.place?_eq_none.1 hp
    rw [record_of_new hp] at hr
    rcases List.mem_append.1 hr with hr | hr
    · exact Or.inl ⟨hr, fun heq => hnew (heq ▸ List.mem_map_of_mem hr)⟩
    · exact Or.inr ⟨_, Or.inr ⟨hnew, rfl⟩, List.mem_singleton.1 hr⟩
  | some i =>
    rw [record_of_place hp] at hr
    obtain ⟨j, hj⟩ := List.mem_iff_getElem?.1 hr
    rw [List.getElem?_modify] at hj
    have hi := (h computer i).1 hp
    by_cases hij : i = j
    · subst hij
      obtain ⟨r₀, hr₀, rfl⟩ := Option.map_eq_some_iff.1 hj
      rw [computers, List.getElem?_map, hr₀] at hi
      exact Or.inr ⟨r₀, Or.inl ⟨List.mem_of_getElem? hr₀, by simpa using hi⟩, if_pos rfl⟩
    · have hj : k.records[j]? = some r := by simpa [hij] using hj
      refine Or.inl ⟨List.mem_of_getElem? hj, fun heq => hij ?_⟩
      -- two places of one computer are one place
      have hplace := (h r.computer j).2 (by simp [computers, hj])
      rw [heq, hp] at hplace
      exact Option.some.inj hplace

/-! ## A computer is gone -/

theorem lookup_closeUp (places : List (ComputerId × Nat)) (computer : ComputerId) (f : Nat → Nat) (d : ComputerId) :
    ((places.filter (·.1 != computer)).map fun (other, j) => (other, f j)).lookup d =
      if d = computer then none else (places.lookup d).map f := by
  induction places with
  | nil => simp
  | cons p places ih =>
    obtain ⟨other, j⟩ := p
    rw [lookup_cons_ite]
    by_cases ho : other = computer
    · by_cases hd : d = computer
      · simpa [ho, hd] using ih
      · simpa [ho, hd] using ih
    · rw [List.filter_cons_of_pos (by simpa using ho), List.map_cons, lookup_cons_ite, ih]
      by_cases hd : d = other
      · simp [ho, hd]
      · simp [hd]

theorem evict_of_place {computer : ComputerId} {i : Nat} (h : k.place? computer = some i) :
    (k.evict computer).computers = k.computers.eraseIdx i ∧
      ∀ d, (k.evict computer).place? d = if d = computer then none else (k.place? d).map (closeUp i) := by
  constructor
  · simp [evict, h, computers, List.eraseIdx_eq_take_drop_succ]
  · intro d
    simp only [evict, h]
    exact lookup_closeUp k.places computer (closeUp i) d

theorem Indexed.evict (h : k.Indexed) (computer : ComputerId) : (k.evict computer).Indexed := by
  cases hp : k.place? computer with
  | none => simpa [RecordKeeper.evict, hp] using h
  | some i =>
    obtain ⟨hcomputers, hplace⟩ := evict_of_place hp
    have hi := (h computer i).1 hp
    intro d j
    rw [hcomputers, hplace, List.getElem?_eraseIdx]
    by_cases hd : d = computer
    · subst hd
      rw [if_pos rfl]
      -- the one place of the computer is the one that was taken out
      have hother : ∀ j, k.computers[j]? = some d → j = i := by
        intro j hj
        exact Option.some.inj (((h d j).2 hj).symm.trans hp)
      grind
    · rw [if_neg hd, Option.map_eq_some_iff]
      constructor
      · rintro ⟨j', hj', rfl⟩
        have hd' := (h d j').1 hj'
        have hne : j' ≠ i := by
          rintro rfl
          exact hd (Option.some.inj (hd'.symm.trans hi))
        unfold closeUp
        grind
      · intro hj
        unfold closeUp
        split at hj
        case isTrue hlt => exact ⟨j, (h d j).2 hj, if_neg (by omega)⟩
        case isFalse hle => exact ⟨j + 1, (h d (j + 1)).2 hj, if_pos (by omega)⟩

theorem Indexed.mem_evict (h : k.Indexed) {computer : ComputerId} {r : Record} :
    r ∈ (k.evict computer).records ↔ r ∈ k.records ∧ r.computer ≠ computer := by
  cases hp : k.place? computer with
  | none =>
    have hnew := h.place?_eq_none.1 hp
    simp only [RecordKeeper.evict, hp]
    exact ⟨fun hr => ⟨hr, fun heq => hnew (heq ▸ List.mem_map_of_mem hr)⟩, And.left⟩
  | some i =>
    have hi := (h computer i).1 hp
    simp only [RecordKeeper.evict, hp, List.mem_eraseIdx_iff_getElem?]
    constructor
    · rintro ⟨j, hne, hj⟩
      refine ⟨List.mem_of_getElem? hj, fun heq => hne ?_⟩
      have hplace := (h r.computer j).2 (by simp [computers, hj])
      rw [heq, hp] at hplace
      exact (Option.some.inj hplace).symm
    · rintro ⟨hr, hne⟩
      obtain ⟨j, hj⟩ := List.mem_iff_getElem?.1 hr
      refine ⟨j, ?_, hj⟩
      rintro rfl
      rw [computers, List.getElem?_map, hj] at hi
      exact hne (Option.some.inj hi)

theorem evict_sublist (k : RecordKeeper) (computer : ComputerId) :
    (k.evict computer).records.Sublist k.records := by
  unfold RecordKeeper.evict
  split
  · exact .refl _
  · exact List.eraseIdx_sublist ..

end RecordKeeper

/-! ## What was heard -/

/-- Something that a keeper of records notices. -/
inductive Sight where
  /-- Its records are cleared. -/
  | cleared
  /-- It takes in an observation. -/
  | observed (computer : ComputerId) (o : Observation)
  /-- It hears that a computer is gone. -/
  | evicted (computer : ComputerId)
  deriving DecidableEq

namespace Sight

/-- Whether what was observed of a computer before is forgotten. -/
def ends (computer : ComputerId) : Sight → Bool
  | cleared => true
  | observed _ _ => false
  | evicted other => other == computer

/-- What was observed of a computer. -/
def of? (computer : ComputerId) : Sight → Option Observation
  | observed other o => if other = computer then some o else none
  | _ => none

end Sight

/-- What was noticed since a computer's record was last forgotten. -/
def recent (history : List Sight) (computer : ComputerId) : List Sight :=
  history.rtakeWhile (!·.ends computer)

/-- What was observed of a computer since its record was last forgotten. -/
def since (history : List Sight) (computer : ComputerId) : List Observation :=
  (recent history computer).filterMap (·.of? computer)

/-- When the first of these was observed. -/
def begins (history : List Sight) (computer : ComputerId) : Nat :=
  history.length - (recent history computer).length +
    (recent history computer).findIdx fun s => (s.of? computer).isSome

section History

variable {history : List Sight} {computer d : ComputerId}

theorem recent_concat_of_ends {s : Sight} (h : s.ends d = true) : recent (history ++ [s]) d = [] :=
  List.rtakeWhile_concat_neg _ _ _ (by simpa using h)

theorem recent_concat {s : Sight} (h : s.ends d = false) : recent (history ++ [s]) d = recent history d ++ [s] :=
  List.rtakeWhile_concat_pos _ _ _ (by simpa using h)

theorem since_concat_of_ends {s : Sight} (h : s.ends d = true) : since (history ++ [s]) d = [] := by
  rw [since, recent_concat_of_ends h, List.filterMap_nil]

theorem since_concat {s : Sight} (h : s.ends d = false) :
    since (history ++ [s]) d = since history d ++ (s.of? d).toList := by
  rw [since, recent_concat h, List.filterMap_append]
  cases hs : s.of? d <;> simp [since, hs]

/-- A computer was observed exactly if the first observation stands before the end. -/
theorem since_ne_nil_iff : since history d ≠ [] ↔ begins history d < history.length := by
  have hle : (recent history d).length ≤ history.length := (List.rtakeWhile_suffix _ _).length_le
  have hiff : since history d ≠ [] ↔ (recent history d).findIdx (fun s => (s.of? d).isSome) < (recent history d).length := by
    rw [List.findIdx_lt_length, Ne, since, List.filterMap_eq_nil_iff]
    simp [Option.ne_none_iff_isSome]
  rw [hiff, begins]
  omega

theorem begins_concat {s : Sight} (h : s.ends d = false) (hd : since history d ≠ []) :
    begins (history ++ [s]) d = begins history d := by
  have hle : (recent history d).length ≤ history.length := (List.rtakeWhile_suffix _ _).length_le
  have hlt := since_ne_nil_iff.1 hd
  unfold begins at hlt ⊢
  rw [recent_concat h, List.findIdx_append, if_pos (by omega)]
  simp

theorem begins_concat_of_new {s : Sight} (h : s.ends d = false) (hs : (s.of? d).isSome) (hd : since history d = []) :
    begins (history ++ [s]) d = history.length := by
  have hle : (recent history d).length ≤ history.length := (List.rtakeWhile_suffix _ _).length_le
  have hlt : ¬ begins history d < history.length := fun hb => since_ne_nil_iff.2 hb hd
  unfold begins at hlt ⊢
  rw [recent_concat h, List.findIdx_append, if_neg (by omega)]
  simpa [hs] using Nat.sub_add_cancel hle

end History

/-! ## The keeper and what it has heard -/

/-- A keeper holds what can be told from what it has heard. -/
structure Replays (history : List Sight) (k : RecordKeeper) : Prop where
  /-- Its table has the places of its records. -/
  indexed : k.Indexed
  /-- Who was observed since it was last forgotten is listed, and nobody else. -/
  listed : ∀ computer, computer ∈ k.computers ↔ since history computer ≠ []
  /-- The computers stand in the order in which they were then first observed. -/
  ordered : k.computers.Pairwise fun a b => begins history a < begins history b
  /-- A record is what the observations make of a new one. -/
  replayed : ∀ r ∈ k.records, r = Record.replay r.computer (since history r.computer)
  /-- Whoever is looked up is found in the list. -/
  found : ∀ computer r, k.get? computer = some r ↔ r ∈ k.records ∧ r.computer = computer

namespace Replays

variable {history : List Sight} {k : RecordKeeper}

theorem of_indexed (h : k.Indexed) (listed : ∀ computer, computer ∈ k.computers ↔ since history computer ≠ [])
    (ordered : k.computers.Pairwise fun a b => begins history a < begins history b)
    (replayed : ∀ r ∈ k.records, r = Record.replay r.computer (since history r.computer)) : Replays history k :=
  ⟨h, listed, ordered, replayed, fun _ _ => h.get?_eq_some⟩

theorem new : Replays [] {} := by
  refine of_indexed (RecordKeeper.indexed_clear {}) ?_ List.Pairwise.nil (fun r hr => absurd hr List.not_mem_nil)
  intro computer
  simp [RecordKeeper.computers, since, recent]

theorem cleared (history : List Sight) (k : RecordKeeper) (tracking : Bool) :
    Replays (history ++ [.cleared]) { k.clear with tracking } := by
  refine of_indexed k.indexed_clear ?_ List.Pairwise.nil (fun r hr => absurd hr List.not_mem_nil)
  intro computer
  rw [since_concat_of_ends rfl]
  simp [RecordKeeper.clear, RecordKeeper.computers]

theorem since_nil (h : Replays history k) (hnew : computer ∉ k.computers) : since history computer = [] := by
  by_contra hne
  exact hnew ((h.listed computer).2 hne)

theorem observed (h : Replays history k) (computer : ComputerId) (o : Observation) :
    Replays (history ++ [.observed computer o]) (k.record computer o) := by
  have hkeep : ∀ d, (Sight.observed computer o).ends d = false := fun d => rfl
  have hsince : ∀ d, since (history ++ [.observed computer o]) d =
      since history d ++ if computer = d then [o] else [] := by
    intro d
    rw [since_concat (hkeep d), Sight.of?]
    split <;> rfl
  have hbegins : ∀ d ∈ k.computers, begins (history ++ [.observed computer o]) d = begins history d :=
    fun d hd => begins_concat (hkeep d) ((h.listed d).1 hd)
  have hordered : k.computers.Pairwise fun a b =>
      begins (history ++ [.observed computer o]) a < begins (history ++ [.observed computer o]) b := by
    refine h.ordered.imp_of_mem fun ha hb hab => ?_
    rwa [hbegins _ ha, hbegins _ hb]
  refine of_indexed (h.indexed.record computer o) ?_ ?_ ?_
  · intro d
    rw [h.indexed.computers_record, hsince]
    by_cases heq : computer = d
    · subst heq
      split <;> simp [*]
    · rw [if_neg heq, List.append_nil, ← h.listed d]
      split <;> simp [Ne.symm heq]
  · rw [h.indexed.computers_record]
    split
    case isTrue => exact hordered
    case isFalse hnew =>
      -- whoever is new was first observed now, and everybody else before
      have hnil := h.since_nil hnew
      have hlast : begins (history ++ [.observed computer o]) computer = history.length :=
        begins_concat_of_new (hkeep computer) (by simp [Sight.of?]) hnil
      refine List.pairwise_append.2 ⟨hordered, List.pairwise_singleton _ _, ?_⟩
      intro a ha b hb
      rw [List.mem_singleton.1 hb, hlast, hbegins a ha]
      exact since_ne_nil_iff.1 ((h.listed a).1 ha)
  · intro r hr
    rcases h.indexed.mem_record hr with ⟨hold, hne⟩ | ⟨r₀, hr₀, rfl⟩
    · rw [hsince, if_neg (Ne.symm hne), List.append_nil]
      exact h.replayed r hold
    · rw [Record.observe_computer, hsince]
      rcases hr₀ with ⟨hold, rfl⟩ | ⟨hnew, rfl⟩
      · rw [if_pos rfl, Record.replay_concat, ← h.replayed r₀ hold]
      · show _ = Record.replay computer (since history computer ++ if computer = computer then [o] else [])
        rw [h.since_nil hnew, if_pos rfl]
        rfl

theorem evicted (h : Replays history k) (computer : ComputerId) :
    Replays (history ++ [.evicted computer]) (k.evict computer) := by
  have hkeep : ∀ d, d ≠ computer → (Sight.evicted computer).ends d = false := by
    intro d hd
    simpa [Sight.ends] using Ne.symm hd
  have hsince : ∀ d, d ≠ computer → since (history ++ [.evicted computer]) d = since history d := by
    intro d hd
    rw [since_concat (hkeep d hd)]
    exact List.append_nil _
  have hmem : ∀ d, d ∈ (k.evict computer).computers ↔ d ∈ k.computers ∧ d ≠ computer := by
    intro d
    simp only [RecordKeeper.computers, List.mem_map, h.indexed.mem_evict]
    constructor
    · rintro ⟨r, ⟨hr, hne⟩, rfl⟩
      exact ⟨⟨r, hr, rfl⟩, hne⟩
    · rintro ⟨⟨r, hr, rfl⟩, hne⟩
      exact ⟨r, ⟨hr, hne⟩, rfl⟩
  refine of_indexed (h.indexed.evict computer) ?_ ?_ ?_
  · intro d
    rw [hmem]
    by_cases hd : d = computer
    · have hend : (Sight.evicted computer).ends d = true := by simp [Sight.ends, hd]
      rw [since_concat_of_ends hend]
      simp [hd]
    · simp [hsince d hd, hd, h.listed d]
  · have hsub : (k.evict computer).computers.Sublist k.computers := (k.evict_sublist computer).map _
    refine (h.ordered.sublist hsub).imp_of_mem fun ha hb hab => ?_
    obtain ⟨ha, hane⟩ := (hmem _).1 ha
    obtain ⟨hb, hbne⟩ := (hmem _).1 hb
    rwa [begins_concat (hkeep _ hane) ((h.listed _).1 ha), begins_concat (hkeep _ hbne) ((h.listed _).1 hb)]
  · intro r hr
    obtain ⟨hr, hne⟩ := h.indexed.mem_evict.1 hr
    rw [hsince _ hne]
    exact h.replayed r hr

end Replays

namespace Context

/-- Whether an observer takes observations in. -/
def tracks (c : Context) (i : Nat) : Bool := c.observers[i]?.any (·.tracking)

/-- What an observer notices of a call: it is cleared by its own start and stop, an observation counts while it is
tracking and registered, and of computers that are gone it hears while it is registered. -/
def sight? (c : Context) (i : Nat) : ContextCall → Option Sight
  | .start j | .stop j => if j = i then some .cleared else none
  | .observe computer o => if c.tracks i ∧ i ∈ c.registered then some (.observed computer o) else none
  | .unload computer => if i ∈ c.registered then some (.evicted computer) else none
  | .add _ | .remove _ | .shutdown => none

/-- What an observer notices of a sequence of calls. -/
def sights (c : Context) (i : Nat) : List ContextCall → List Sight
  | [] => []
  | call :: calls => (c.sight? i call).toList ++ (c.after call).sights i calls

variable {c : Context} {i : Nat} {k : RecordKeeper} {history : List Sight}

/-- One call keeps the keeper in step with what it has heard. -/
theorem Coherent.replays_after (hc : c.Coherent) (hk : c.observers[i]? = some (.records k)) (h : Replays history k)
    (call : ContextCall) : ∃ k', (c.after call).observers[i]? = some (.records k') ∧
      Replays (history ++ (c.sight? i call).toList) k' := by
  have hset : ∀ j tracking, ∃ k', (c.setTracking j tracking).1.observers[i]? = some (.records k') ∧
      Replays (history ++ (if j = i then some Sight.cleared else none).toList) k' := by
    intro j tracking
    rw [setTracking_observers, List.getElem?_modify, hk]
    by_cases hj : j = i
    · exact ⟨{ k.clear with tracking }, by simp [hj, Observer.setTracking], by simpa [hj] using .cleared _ k tracking⟩
    · exact ⟨k, by simp [hj], by simpa [hj] using h⟩
  cases call with
  | start j => exact start_observers c j ▸ hset j true
  | stop j => exact stop_observers c j ▸ hset j false
  | add j => exact ⟨k, by simpa [Context.after] using hk, by simpa [sight?] using h⟩
  | remove j => exact ⟨k, by simpa [Context.after] using hk, by simpa [sight?] using h⟩
  | shutdown => exact ⟨k, hk, by simpa [sight?] using h⟩
  | observe computer o =>
    have htracks : c.tracks i = k.tracking := by simp [tracks, hk, Observer.tracking]
    simp only [Context.after, hc.observe_eq, hc.broadcast_getElem?, hk, sight?, htracks]
    by_cases hi : i ∈ c.registered
    · refine ⟨k.hear computer (.observed o), by simp [hi, Observer.hear], ?_⟩
      cases ht : k.tracking with
      | true => simpa [RecordKeeper.hear, ht, hi] using h.observed computer o
      | false => simpa [RecordKeeper.hear, ht] using h
    · exact ⟨k, by simp [hi], by simpa [hi] using h⟩
  | unload computer =>
    simp only [Context.after, computerUnloaded, hc.broadcast_getElem?, hk, sight?]
    by_cases hi : i ∈ c.registered
    · exact ⟨k.evict computer, by simp [hi, Observer.hear, RecordKeeper.hear],
        by simpa [hi] using h.evicted computer⟩
    · exact ⟨k, by simp [hi], by simpa [hi] using h⟩

theorem Coherent.replays_run (hc : c.Coherent) (hk : c.observers[i]? = some (.records k)) (h : Replays history k)
    (calls : List ContextCall) :
    ∃ k', (c.run calls).observers[i]? = some (.records k') ∧ Replays (history ++ c.sights i calls) k' := by
  induction calls generalizing c k history with
  | nil => exact ⟨k, hk, by simpa [sights] using h⟩
  | cons call calls ih =>
    obtain ⟨k', hk', h'⟩ := hc.replays_after hk h call
    obtain ⟨k'', hk'', h''⟩ := ih (hc.after call) hk' h'
    exact ⟨k'', hk'', by simpa [sights] using h''⟩

/-- Whatever is done with a context and its observers, a keeper that begins without records holds what it has heard:
everybody who was observed since its record was last forgotten, in order, with what was observed. -/
theorem run_replays {r : Registry} {new : Context} (hnew : ofRegistry r = .ok new) (observers : List Observer)
    (earlier : List ContextCall) (i : Nat) (hi : ({ new with observers }.run earlier).observers[i]? = some (.records {}))
    (calls : List ContextCall) :
    ∃ k, (({ new with observers }.run earlier).run calls).observers[i]? = some (.records k) ∧
      Replays (({ new with observers }.run earlier).sights i calls) k := by
  have hc := coherent_of_ofRegistry hnew
  have hstart : { new with observers }.Coherent := ⟨hc.distinct, hc.marked⟩
  exact (hstart.run earlier).replays_run hi .new calls

/-- A context with the standard metrics and two keepers of records. -/
def watched : Context where
  registry := .standard
  standard := ⟨⟨0, "computer_tasks", .event .time⟩, ⟨1, "server_tasks", .event .time⟩, ⟨2, "allocation", .event .bytes⟩,
    ⟨3, "peripheral_ops", .counter⟩, ⟨4, "fs_ops", .counter⟩, ⟨5, "coroutines_created", .counter⟩,
    ⟨6, "coroutines_disposed", .counter⟩⟩
  observers := [.records {}, .records {}]

theorem ofRegistry_standard : ofRegistry .standard = .ok { watched with observers := [] } :=
  ofRegistry_of_lookup (by decide +kernel)

/-- Three computers are observed while one is told that the second is gone, which is observed again. -/
def reshuffled : List ContextCall :=
  let task (computer : ComputerId) : ContextCall := .observe computer (.event watched.standard.computerTasks 7)
  [.start 0, task ⟨1⟩, task ⟨2⟩, task ⟨3⟩, .unload ⟨2⟩, .remove 0, task ⟨4⟩, .add 0, task ⟨3⟩, task ⟨2⟩]

/-- The third computer has moved up, the second stands behind it, and what was observed meanwhile is not there. -/
theorem replays_reshuffled : ∃ k, ((watched.run [.start 1]).run reshuffled).observers[0]? = some (.records k) ∧
    k.computers = [⟨1⟩, ⟨3⟩, ⟨2⟩] ∧
    since ((watched.run [.start 1]).sights 0 reshuffled) ⟨3⟩ =
      [.event watched.standard.computerTasks 7, .event watched.standard.computerTasks 7] ∧
    Replays ((watched.run [.start 1]).sights 0 reshuffled) k := by
  obtain ⟨k, hk, h⟩ := run_replays ofRegistry_standard watched.observers [.start 1] 0 rfl reshuffled
  have hcomputers : (((watched.run [.start 1]).run reshuffled).observers[0]?.map fun
      | .records k => k.computers
      | _ => []) = some [⟨1⟩, ⟨3⟩, ⟨2⟩] := by
    decide +kernel
  refine ⟨k, hk, ?_, by decide +kernel, h⟩
  rw [show ((watched.run [.start 1]).run reshuffled).observers[0]? = some (.records k) from hk] at hcomputers
  simpa using hcomputers

end Context

end FairShare.Metrics
