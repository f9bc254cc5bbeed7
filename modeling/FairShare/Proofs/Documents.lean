import FairShare.Proofs.Replay
import FairShare.Scheduler.Config
import Mathlib

/-!
# What documents say

The fields of an object are found in whatever order they are written, and among whatever strangers. So a configuration of
which some fields are written is read as the one that has the values of those and the defaults of the others; and a
configuration or a record that is written whole is read as itself.
-/

namespace FairShare

open Metrics (lookup_cons_ite)

namespace Json

variable {names : List String} {name : String} {entries entries' : List (String × Json)} {j : Json}

/-- An object of these entries, in any order. -/
def Lists (entries : List (String × Json)) (j : Json) : Prop :=
  ∃ written : List (String × Json), written.Perm entries ∧ j = .object (written.map fun e => field e.1 e.2)

/-- No known name comes twice. -/
def Distinct (names : List String) (entries : List (String × Json)) : Prop :=
  entries.Pairwise fun e e' => e.1 ∈ names → e.1 ≠ e'.1

/-! ## Looking up -/

theorem Distinct.perm (h : Distinct names entries) (hperm : entries.Perm entries') : Distinct names entries' := by
  refine (hperm.pairwise_iff ?_).1 h
  intro e e' hne hmem heq
  exact hne (heq ▸ hmem) heq.symm

theorem lookup_perm (hperm : entries.Perm entries') (h : Distinct names entries) (hname : name ∈ names) :
    entries.lookup name = entries'.lookup name := by
  induction hperm with
  | nil => rfl
  | cons e _ ih =>
    rw [lookup_cons_ite, lookup_cons_ite, ih (List.Pairwise.of_cons h)]
  | swap e e' rest =>
    have hne := (List.pairwise_cons.1 h).1 e List.mem_cons_self
    rw [lookup_cons_ite, lookup_cons_ite, lookup_cons_ite, lookup_cons_ite]
    split_ifs with he' he
    · exact absurd (he'.symm.trans he) (hne (he' ▸ hname))
    · rfl
    · rfl
    · rfl
  | trans hperm _ ih ih' => exact (ih h).trans (ih' (Distinct.perm h hperm))

theorem lookup_filter (keep : String → Bool) (entries : List (String × Json)) (name : String) :
    (entries.filter (keep ·.1)).lookup name = if keep name then entries.lookup name else none := by
  induction entries with
  | nil => simp
  | cons e entries ih =>
    rw [List.filter_cons, lookup_cons_ite]
    split
    case isTrue hkept =>
      rw [lookup_cons_ite, ih]
      split_ifs with he hkeep hkeep
      · rfl
      · exact absurd (he ▸ hkept) hkeep
      · rfl
      · rfl
    case isFalse hdropped =>
      rw [ih]
      split_ifs with hkeep he
      · exact absurd (he ▸ hkeep) hdropped
      · rfl
      · rfl

/-! ## Reading fields -/

/-- To fill in the place of a name is to change what is found under it. -/
theorem set_map (hnames : names.Nodup) {i : Nat} (hi : names[i]? = some name) (found : String → Option Json) (v : Json) :
    (names.map found).set i (some v) = names.map (Function.update found name (some v)) := by
  have hlt := (List.getElem?_eq_some_iff.1 hi).1
  refine List.ext_getElem? fun k => ?_
  rw [List.getElem?_set, List.getElem?_map, List.getElem?_map, List.length_map, if_pos hlt]
  split_ifs with hik
  · rw [← hik, hi, Option.map_some, Function.update_self]
  · cases hk : names[k]? with
    | none => rfl
    | some other =>
      have hne : other ≠ name := by
        rintro rfl
        exact hik ((List.getElem?_inj hlt hnames).1 (hi.trans hk.symm))
      rw [Option.map_some, Option.map_some, Function.update_of_ne hne]

/-- Every known name finds its value, unless it had one before. -/
theorem place?_eq (hnames : names.Nodup) {rule : Others} (hrule : rule = .refused → ∀ e ∈ entries, e.1 ∈ names)
    (h : Distinct names entries) (found : String → Option Json) (hfound : ∀ e ∈ entries, e.1 ∈ names → found e.1 = none) :
    place? names rule (entries.map fun e => field e.1 e.2) (names.map found) =
      some (names.map fun name => (found name).or (entries.lookup name)) := by
  induction entries generalizing found with
  | nil => simp [place?]
  | cons e entries ih =>
    obtain ⟨hfirst, hrest⟩ := List.pairwise_cons.1 h
    have hrule' : rule = .refused → ∀ e' ∈ entries, e'.1 ∈ names :=
      fun hr e' he' => hrule hr e' (List.mem_cons_of_mem e he')
    rw [List.map_cons, field, place?]
    by_cases hmem : e.1 ∈ names
    case pos =>
      obtain ⟨i, hindex⟩ := Option.ne_none_iff_exists'.1 (mt List.idxOf?_eq_none_iff.1 (not_not.2 hmem))
      obtain ⟨hlt, hname, -⟩ := List.idxOf?_eq_some_iff.1 hindex
      have hi : names[i]? = some e.1 := List.getElem?_eq_some_iff.2 ⟨hlt, hname⟩
      have hfree := hfound e List.mem_cons_self hmem
      have hplace : (names.map found)[i]? = some none := by
        rw [List.getElem?_map, hi, Option.map_some, hfree]
      simp only [hindex, hplace]
      rw [set_map hnames hi, ih hrule' hrest _ ?free]
      case free =>
        intro e' he' hmem'
        rw [Function.update_of_ne (hfirst e' he' hmem).symm]
        exact hfound e' (List.mem_cons_of_mem e he') hmem'
      refine congrArg some (List.map_congr_left fun name _ => ?_)
      rw [lookup_cons_ite]
      split_ifs with heq
      · rw [heq, Function.update_self, hfree]
        rfl
      · rw [Function.update_of_ne heq]
    case neg =>
      have hignored : rule = .ignored := by
        cases rule with
        | ignored => rfl
        | refused => exact absurd (hrule rfl e List.mem_cons_self) hmem
      simp only [List.idxOf?_eq_none_iff.2 hmem, if_pos hignored]
      rw [ih hrule' hrest found fun e' he' => hfound e' (List.mem_cons_of_mem e he')]
      refine congrArg some (List.map_congr_left fun name hname => ?_)
      have hne : name ≠ e.1 := fun heq => hmem (heq ▸ hname)
      rw [lookup_cons_ite, if_neg hne]

/-- The fields of an object are those of its entries, whatever their order. -/
theorem fields?_of_lists (hnames : names.Nodup) {rule : Others} (hrule : rule = .refused → ∀ e ∈ entries, e.1 ∈ names)
    (h : Distinct names entries) (hj : Lists entries j) :
    j.fields? names rule = some (names.map fun name => entries.lookup name) := by
  obtain ⟨written, hperm, rfl⟩ := hj
  have hwritten := h.perm hperm.symm
  have hplaced := place?_eq hnames (fun hr e he => hrule hr e (hperm.mem_iff.1 he)) hwritten
    (fun _ => none) fun _ _ _ => rfl
  rw [fields?, hplaced]
  refine congrArg some (List.map_congr_left fun name hname => ?_)
  exact lookup_perm hperm hwritten hname

/-- A document that has these of some fields, and strangers, whose names are none of the fields'. -/
def Selects (fields : List (String × Json)) (keep : String → Bool) (strangers : List (String × Json)) (j : Json) : Prop :=
  (∀ e ∈ strangers, e.1 ∉ fields.map Prod.fst) ∧ Lists (fields.filter (keep ·.1) ++ strangers) j

variable {fields strangers : List (String × Json)} {keep : String → Bool}

theorem lookup_of_nodup (hnames : (fields.map Prod.fst).Nodup) : ∀ e ∈ fields, fields.lookup e.1 = some e.2 := by
  induction fields with
  | nil => exact fun e he => absurd he List.not_mem_nil
  | cons e fields ih =>
    obtain ⟨hfirst, hrest⟩ := List.nodup_cons.1 hnames
    intro e' he'
    rw [lookup_cons_ite]
    rcases List.mem_cons.1 he' with rfl | hmem
    · rw [if_pos rfl]
    · have hne : e'.1 ≠ e.1 := fun heq => hfirst (heq ▸ List.mem_map_of_mem hmem)
      rw [if_neg hne, ih hrest e' hmem]

theorem fields?_of_selects (rule : Others) (hrule : rule = .refused → strangers = []) (hnodup : names.Nodup)
    (hnames : fields.map Prod.fst = names) (hj : Selects fields keep strangers j) :
    j.fields? names rule = some (fields.map fun e => if keep e.1 then some e.2 else none) := by
  subst hnames
  obtain ⟨hstrangers, hlists⟩ := hj
  have hdistinct : Distinct (fields.map Prod.fst) (fields.filter (keep ·.1) ++ strangers) := by
    have hfields : Distinct (fields.map Prod.fst) fields := by
      refine (List.pairwise_map.1 hnodup).imp ?_
      intro e e' hne _
      exact hne
    refine List.pairwise_append.2 ⟨hfields.filter _, ?_, ?_⟩
    · exact List.pairwise_of_forall_mem_list fun e he _ _ hmem => absurd hmem (hstrangers e he)
    · intro e _ e' he' hmem heq
      exact hstrangers e' he' (heq ▸ hmem)
  have hknown : rule = .refused → ∀ e ∈ fields.filter (keep ·.1) ++ strangers, e.1 ∈ fields.map Prod.fst := by
    intro hr e he
    rw [hrule hr, List.append_nil] at he
    exact List.mem_map_of_mem (List.mem_of_mem_filter he)
  rw [fields?_of_lists hnodup hknown hdistinct hlists, List.map_map]
  refine congrArg some (List.map_congr_left fun e he => ?_)
  have hmem : e.1 ∈ fields.map Prod.fst := List.mem_map_of_mem he
  have hother : strangers.lookup e.1 = none := by
    refine List.lookup_eq_none_iff.2 fun e' he' => ?_
    have hne : e.1 ≠ e'.1 := fun heq => hstrangers e' he' (heq ▸ hmem)
    simpa using hne
  rw [Function.comp, List.lookup_append, lookup_filter, lookup_of_nodup hnodup e he, hother, Option.or_none]

/-- A field that is not written has its default. -/
theorem fieldOr_ite {α : Type} {read : Json → Option α} {v : Json} {x : α} (hread : read v = some x) (default : α) (b : Bool) :
    fieldOr default read (if b then some v else none) = some (if b then x else default) := by
  cases b
  case true => exact hread
  case false => rfl

/-! ## Numbers -/

theorem word64?_natural (x : UInt64) : word64? (.natural x.toNat) = some x := by
  have hlt := x.toNat_lt
  simp only [word64?, below?]
  rw [if_pos (by omega), Option.map_some, UInt64.ofNat_toNat]

theorem word32?_natural (x : UInt32) : word32? (.natural x.toNat) = some x := by
  have hlt := x.toNat_lt
  simp only [word32?, below?]
  rw [if_pos (by omega), Option.map_some, UInt32.ofNat_toNat]

theorem words?_naturals (xs : List UInt64) : words? (.array (xs.map fun x => .natural x.toNat)) = some xs := by
  induction xs with
  | nil => rfl
  | cons x xs ih =>
    simp only [words?] at ih ⊢
    rw [List.map_cons, List.mapM_cons, word64?_natural, ih]
    rfl

end Json

open Json (Selects fields?_of_selects fieldOr_ite)

/-! ## Durations -/

namespace Duration

/-- A duration, with its two fields in either order. -/
def Spelled (d : Duration) (j : Json) : Prop :=
  Selects [("secs", .natural d.seconds.toNat), ("nanos", .natural d.subsecNanos.toNat)] (fun _ => true) [] j

theorem spelled_toJson (d : Duration) : d.Spelled d.toJson :=
  ⟨fun _ h => absurd h List.not_mem_nil, _, .refl _, rfl⟩

theorem ofJson?_of_spelled {d : Duration} {j : Json} (h : d.Spelled j) : ofJson? j = some d := by
  have hfields := fields?_of_selects .refused (fun _ => rfl) (by decide : fieldNames.Nodup) rfl h
  simp only [List.map_cons, List.map_nil, if_true] at hfields
  simp only [ofJson?, hfields, Option.bind_eq_bind]
  rw [Option.bind_some]
  simp only [Json.word64?_natural, Json.word32?_natural]
  rw [Option.bind_some, Option.bind_some, ofParts?_parts]

end Duration

/-! ## Configurations -/

/-- The configuration with these of its fields, and the defaults of the others. -/
def TimeoutConfig.keeping (keep : String → Bool) (c : TimeoutConfig) : TimeoutConfig where
  timeout := if keep "timeout" then c.timeout else TimeoutConfig.timeout {}
  abortTimeout := if keep "abort_timeout" then c.abortTimeout else TimeoutConfig.abortTimeout {}

/-- A document with these fields of a configuration, in any order and among any strangers. -/
def TimeoutConfig.Spelled (keep : String → Bool) (c : TimeoutConfig) (j : Json) : Prop :=
  ∃ timeout abortTimeout strangers, c.timeout.Spelled timeout ∧ c.abortTimeout.Spelled abortTimeout ∧
    Selects [("timeout", timeout), ("abort_timeout", abortTimeout)] keep strangers j

namespace TimeoutConfig

theorem spelled_toJson (c : TimeoutConfig) : c.Spelled (fun _ => true) c.toJson :=
  ⟨_, _, [], c.timeout.spelled_toJson, c.abortTimeout.spelled_toJson, fun _ h => absurd h List.not_mem_nil, _, .refl _, rfl⟩

theorem ofJson?_of_spelled {keep : String → Bool} {c : TimeoutConfig} {j : Json} (h : c.Spelled keep j) :
    ofJson? j = some (c.keeping keep) := by
  obtain ⟨timeout, abortTimeout, strangers, htimeout, habort, hj⟩ := h
  have hfields := fields?_of_selects .ignored nofun (by decide : fieldNames.Nodup) rfl hj
  simp only [List.map_cons, List.map_nil] at hfields
  simp only [ofJson?, hfields, Option.bind_eq_bind]
  rw [Option.bind_some]
  simp only [fieldOr_ite (Duration.ofJson?_of_spelled htimeout), fieldOr_ite (Duration.ofJson?_of_spelled habort)]
  rfl

end TimeoutConfig

/-- The configuration with these of its fields and of those of its timeouts, and the defaults of the others. -/
def SchedulerConfig.keeping (keep keepTimeouts : String → Bool) (c : SchedulerConfig) : SchedulerConfig where
  workerCount := if keep "worker_count" then c.workerCount else SchedulerConfig.workerCount {}
  basePeriod := if keep "base_period" then c.basePeriod else SchedulerConfig.basePeriod {}
  minPeriod := if keep "min_period" then c.minPeriod else SchedulerConfig.minPeriod {}
  monitorInterval := if keep "monitor_interval" then c.monitorInterval else SchedulerConfig.monitorInterval {}
  reportDebounce := if keep "report_debounce" then c.reportDebounce else SchedulerConfig.reportDebounce {}
  timeouts := if keep "timeouts" then c.timeouts.keeping keepTimeouts else SchedulerConfig.timeouts {}

/-- A document with these fields of a configuration and of its timeouts, in any order and among any strangers. -/
def SchedulerConfig.Spelled (keep keepTimeouts : String → Bool) (c : SchedulerConfig) (j : Json) : Prop :=
  ∃ basePeriod minPeriod monitorInterval reportDebounce timeouts strangers,
    (c.basePeriod.Spelled basePeriod ∧ c.minPeriod.Spelled minPeriod ∧ c.monitorInterval.Spelled monitorInterval ∧
      c.reportDebounce.Spelled reportDebounce ∧ c.timeouts.Spelled keepTimeouts timeouts) ∧
    Selects [("worker_count", .natural c.workerCount.toNat), ("base_period", basePeriod), ("min_period", minPeriod),
      ("monitor_interval", monitorInterval), ("report_debounce", reportDebounce), ("timeouts", timeouts)] keep strangers j

namespace SchedulerConfig

theorem spelled_toJson (c : SchedulerConfig) : c.Spelled (fun _ => true) (fun _ => true) c.toJson :=
  ⟨_, _, _, _, _, [], ⟨c.basePeriod.spelled_toJson, c.minPeriod.spelled_toJson, c.monitorInterval.spelled_toJson,
    c.reportDebounce.spelled_toJson, c.timeouts.spelled_toJson⟩, fun _ h => absurd h List.not_mem_nil, _, .refl _, rfl⟩

theorem ofJson?_of_spelled {keep keepTimeouts : String → Bool} {c : SchedulerConfig} {j : Json}
    (h : c.Spelled keep keepTimeouts j) : ofJson? j = some (c.keeping keep keepTimeouts) := by
  obtain ⟨basePeriod, minPeriod, monitorInterval, reportDebounce, timeouts, strangers,
    ⟨hbase, hmin, hmonitor, hreport, htimeouts⟩, hj⟩ := h
  have hfields := fields?_of_selects .ignored nofun (by decide : fieldNames.Nodup) rfl hj
  simp only [List.map_cons, List.map_nil] at hfields
  simp only [ofJson?, hfields, Option.bind_eq_bind]
  rw [Option.bind_some]
  simp only [fieldOr_ite (Json.word64?_natural _), fieldOr_ite (Duration.ofJson?_of_spelled hbase),
    fieldOr_ite (Duration.ofJson?_of_spelled hmin), fieldOr_ite (Duration.ofJson?_of_spelled hmonitor),
    fieldOr_ite (Duration.ofJson?_of_spelled hreport), fieldOr_ite (TimeoutConfig.ofJson?_of_spelled htimeouts)]
  rfl

end SchedulerConfig

/-! ## Records -/

namespace Metrics.Record

/-- What observations make of a record. -/
def observeAll (r : Record) (os : List Observation) : Record := os.foldl (fun r o => (r.observe o).1) r

theorem ofJson?_toJson (r : Record) : ofJson? r.toJson = some r := by
  set table := fun t : List UInt64 => Json.array (t.map fun x => .natural x.toNat) with htable
  have hselects : Selects [("computer", .natural r.computer.number.toNat), ("counts", table r.counts),
      ("totals", table r.totals), ("max", table r.maxima)] (fun _ => true) [] r.toJson :=
    ⟨fun _ h => absurd h List.not_mem_nil, _, .refl _, rfl⟩
  have hfields := fields?_of_selects .ignored nofun (by decide : fieldNames.Nodup) rfl hselects
  simp only [List.map_cons, List.map_nil, if_true] at hfields
  simp only [ofJson?, hfields, Option.bind_eq_bind]
  rw [Option.bind_some]
  simp only [htable, Json.word32?_natural, Json.words?_naturals, Option.bind_some]
  rfl

end Metrics.Record

/-! ## Reading back -/

/-- What was written is read back: a whole configuration or record as itself, and a document that has some fields of a
configuration as that with the defaults of the others, in whatever order the fields stand and among whatever strangers. -/
theorem documents_readBack :
    (∀ c : SchedulerConfig, SchedulerConfig.ofJson? c.toJson = some c) ∧
    (∀ c : TimeoutConfig, TimeoutConfig.ofJson? c.toJson = some c) ∧
    (∀ r : Metrics.Record, ∃ r', Metrics.Record.ofJson? r.toJson = some r' ∧ r' = r ∧
      ∀ os m a, (r'.observeAll os).get m a = (r.observeAll os).get m a) ∧
    (∀ (c : SchedulerConfig) (keep keepTimeouts : String → Bool) (j : Json), c.Spelled keep keepTimeouts j →
      SchedulerConfig.ofJson? j = some (c.keeping keep keepTimeouts)) ∧
    ∀ (c : TimeoutConfig) (keep : String → Bool) (j : Json), c.Spelled keep j →
      TimeoutConfig.ofJson? j = some (c.keeping keep) := by
  refine ⟨fun c => ?_, fun c => ?_, fun r => ?_, ?_, ?_⟩
  · exact SchedulerConfig.ofJson?_of_spelled c.spelled_toJson
  · exact TimeoutConfig.ofJson?_of_spelled c.spelled_toJson
  · exact ⟨r, r.ofJson?_toJson, rfl, fun _ _ _ => rfl⟩
  · exact fun c keep keepTimeouts j h => SchedulerConfig.ofJson?_of_spelled h
  · exact fun c keep j h => TimeoutConfig.ofJson?_of_spelled h

/-- As many workers as a word can tell, and no duration as it is by default. -/
def crowded : SchedulerConfig where
  workerCount := 18446744073709551615
  basePeriod := .ofMillis 80
  timeouts := { timeout := .ofMillis 9000, abortTimeout := ⟨1000000005, by decide⟩ }

/-- A document that tells of the workers and of one of the timeouts, backwards and with strangers at both levels. -/
def crowdedDocument : Json :=
  .object [Json.field "note" (.array [.null]),
    Json.field "timeouts" (.object [
      Json.field "abort_timeout" (.object [Json.field "nanos" (.natural 5), Json.field "secs" (.natural 1)]),
      Json.field "timeout_ms" .number]),
    Json.field "worker_count" (.natural 18446744073709551615)]

def crowdedNames : String → Bool := (["worker_count", "timeouts", "abort_timeout"].contains ·)

theorem crowded_readBack : crowded.Spelled crowdedNames crowdedNames crowdedDocument ∧
    SchedulerConfig.ofJson? crowdedDocument = some (crowded.keeping crowdedNames crowdedNames) ∧
    crowded.keeping crowdedNames crowdedNames =
      { workerCount := 18446744073709551615, timeouts := { abortTimeout := ⟨1000000005, by decide⟩ } } := by
  have hstep : crowded.timeouts.abortTimeout.Spelled
      (.object [Json.field "nanos" (.natural 5), Json.field "secs" (.natural 1)]) :=
    ⟨fun _ h => absurd h List.not_mem_nil, [("nanos", .natural 5), ("secs", .natural 1)], .swap .., rfl⟩
  have htimeouts : crowded.timeouts.Spelled crowdedNames (.object [
      Json.field "abort_timeout" (.object [Json.field "nanos" (.natural 5), Json.field "secs" (.natural 1)]),
      Json.field "timeout_ms" .number]) :=
    ⟨_, _, [("timeout_ms", .number)], crowded.timeouts.timeout.spelled_toJson, hstep, by simp, _, .refl _, rfl⟩
  have hspelled : crowded.Spelled crowdedNames crowdedNames crowdedDocument :=
    ⟨_, _, _, _, _, [("note", .array [.null])], ⟨crowded.basePeriod.spelled_toJson, crowded.minPeriod.spelled_toJson,
      crowded.monitorInterval.spelled_toJson, crowded.reportDebounce.spelled_toJson, htimeouts⟩, by simp, _,
      List.reverse_perm _, rfl⟩
  exact ⟨hspelled, documents_readBack.2.2.2.1 _ _ _ _ hspelled, by decide +kernel⟩

end FairShare
