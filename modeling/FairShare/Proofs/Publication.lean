import FairShare.Proofs.Totals

/-!
# What a keeper of sums publishes

The attributes of a keeper of sums are a table in order of the keys, which has the keys of all metrics and no others.
Keys are made from names, and names that differ can have one key; then the metric that was registered last is the one
that is published, and the table has fewer entries than the metrics have keys. This cannot happen to names that are words
without capitals joined by single underscores, unless one of them is that of an event with `_count` behind it.
-/

namespace FairShare.Metrics

variable {r : Registry} {m m' : Metric}

/-! ## A table in order of its keys -/

namespace TotalKeeper

section Insert

variable {key : String} {value : UInt64} {entries table : List (String × UInt64)}

theorem mem_keys_insert {a : String} : a ∈ (insert key value table).map (·.1) ↔ a = key ∨ a ∈ table.map (·.1) := by
  induction table with
  | nil => simp [insert]
  | cons entry table ih =>
    obtain ⟨k, v⟩ := entry
    rw [insert]
    split
    case isTrue => simp
    case isFalse =>
      split
      case isTrue heq => simp [heq]
      case isFalse =>
        rw [List.map_cons, List.mem_cons, ih, List.map_cons, List.mem_cons]
        exact or_left_comm

theorem ascending_insert (h : (table.map (·.1)).Pairwise (· < ·)) :
    ((insert key value table).map (·.1)).Pairwise (· < ·) := by
  induction table with
  | nil => exact List.pairwise_singleton ..
  | cons entry table ih =>
    obtain ⟨k, v⟩ := entry
    obtain ⟨hfirst, hrest⟩ := List.pairwise_cons.1 h
    rw [insert]
    split
    case isTrue hlt =>
      refine List.pairwise_cons.2 ⟨fun a ha => ?_, h⟩
      rcases List.mem_cons.1 ha with rfl | ha
      · exact hlt
      · exact lt_trans hlt (hfirst a ha)
    case isFalse hle =>
      split
      case isTrue => exact h
      case isFalse hne =>
        refine List.pairwise_cons.2 ⟨fun a ha => ?_, ih hrest⟩
        rcases mem_keys_insert.1 ha with rfl | ha
        · exact lt_of_le_of_ne (not_lt.1 hle) (Ne.symm hne)
        · exact hfirst a ha

theorem mem_keys_foldl_insert {a : String} :
    a ∈ (entries.foldl (fun table (key, value) => insert key value table) table).map (·.1) ↔
      a ∈ entries.map (·.1) ∨ a ∈ table.map (·.1) := by
  induction entries generalizing table with
  | nil => simp
  | cons entry entries ih =>
    rw [List.foldl_cons, ih, mem_keys_insert, List.map_cons, List.mem_cons, or_assoc, or_left_comm]

theorem ascending_foldl_insert (h : (table.map (·.1)).Pairwise (· < ·)) :
    ((entries.foldl (fun table (key, value) => insert key value table) table).map (·.1)).Pairwise (· < ·) := by
  induction entries generalizing table with
  | nil => exact h
  | cons entry entries ih => exact ih (ascending_insert h)

end Insert

end TotalKeeper

/-! ## The keys of all metrics -/

/-- The keys of the metrics of a registry, metric by metric. -/
def Registry.attributeNames (r : Registry) : List String := r.metrics.flatMap (·.attributeNames)

theorem Metric.length_attributeNames (m : Metric) : m.attributeNames.length = if m.kind.isCounter then 1 else 2 := by
  unfold Metric.attributeNames TotalKeeper.attributesOf
  cases m.kind <;> rfl

theorem Metric.mem_attributeNames {key : String} :
    key ∈ m.attributeNames ↔ key = m.camelName ∨ m.kind.isCounter = false ∧ key = m.camelName ++ "Count" := by
  unfold Metric.attributeNames TotalKeeper.attributesOf
  cases hkind : m.kind with
  | counter => simp [MetricKind.isCounter]
  | event unit => simp [MetricKind.isCounter, or_comm]

/-- No key comes twice exactly if each metric has its keys for itself. -/
theorem Registry.Numbered.nodup_attributeNames (hr : r.Numbered) :
    r.attributeNames.Nodup ↔ ∀ m ∈ r.metrics, r.Sole m := by
  have hdistinct : r.metrics.Nodup := hr.ascending.imp fun hlt heq => Nat.ne_of_lt hlt (congrArg Metric.id heq)
  have hown : ∀ m ∈ r.metrics, m.attributeNames.Nodup := fun m _ => TotalKeeper.attributesOf_nodup m {}
  rw [attributeNames, List.nodup_flatMap, and_iff_right hown]
  have hsymm : Std.Symm (Function.onFun List.Disjoint Metric.attributeNames) := ⟨fun _ _ h => h.symm⟩
  constructor
  · intro h m hm m' hm' hne key hkey' hkey
    exact h.forall hm' hm hne hkey' hkey
  · intro h
    refine hdistinct.pairwise_of_forall_ne fun m hm m' hm' hne key hkey hkey' => ?_
    exact h m hm m' hm' hne.symm key hkey' hkey

/-! ## What is published -/

/-- What the attributes of a keeper of sums tell of the metrics of a registry. -/
structure TotalKeeper.Publishes (k : TotalKeeper) (r : Registry) : Prop where
  ascending : ((k.attributes r).map (·.1)).Pairwise (· < ·)
  keys : ∀ key, key ∈ (k.attributes r).map (·.1) ↔ ∃ m ∈ r.metrics, key ∈ m.attributeNames
  /-- The totals of a metric are read, as far as no later metric has its keys. -/
  latest : ∀ m ∈ r.metrics, ∃ t, k.totals[m.id]? = some t ∧ ∀ key value, (key, value) ∈ attributesOf m t →
    (∀ m' ∈ r.metrics, m.id < m'.id → key ∉ m'.attributeNames) → k.attribute? r key = some value.toNat
  /-- There is one entry for every counter and there are two for every event exactly if no key is shared. -/
  entries : (k.attributes r).length = (r.metrics.map fun m => if m.kind.isCounter then 1 else 2).sum ↔
    ∀ m ∈ r.metrics, r.Sole m

theorem TotalKeeper.keys_entries {k : TotalKeeper} (h : k.totals.length = r.metrics.length) :
    ((r.metrics.zip k.totals).flatMap fun (m, t) => attributesOf m t).map (·.1) = r.attributeNames := by
  calc ((r.metrics.zip k.totals).flatMap fun (m, t) => attributesOf m t).map (·.1)
      = (r.metrics.zip k.totals).flatMap fun p => p.1.attributeNames := by
        rw [List.map_flatMap]
        exact congrArg (List.flatMap · _) (funext fun p => attributesOf_names p.1 p.2)
    _ = ((r.metrics.zip k.totals).map (·.1)).flatMap (·.attributeNames) := (List.flatMap_map ..).symm
    _ = r.attributeNames := by rw [List.map_fst_zip (Nat.le_of_eq h.symm), Registry.attributeNames]

theorem TotalKeeper.publishes {k : TotalKeeper} (hr : r.Numbered) (h : k.totals.length = r.metrics.length) :
    k.Publishes r := by
  have hascending : ((k.attributes r).map (·.1)).Pairwise (· < ·) := ascending_foldl_insert List.Pairwise.nil
  have hkeys : ∀ key, key ∈ (k.attributes r).map (·.1) ↔ key ∈ r.attributeNames := by
    intro key
    rw [attributes, mem_keys_foldl_insert, keys_entries h]
    simp
  constructor
  case ascending => exact hascending
  case keys =>
    intro key
    rw [hkeys, Registry.attributeNames, List.mem_flatMap]
  case latest =>
    intro m hm
    obtain ⟨hlt, -⟩ := List.getElem?_eq_some_iff.1 (hr.get?_id hm)
    have ht := List.getElem?_eq_getElem (h ▸ hlt)
    exact ⟨_, ht, fun key value hmem hlatest => attribute?_latest hr hm ht hmem hlatest⟩
  case entries =>
    -- the table has each of the keys once
    have hnodup : ((k.attributes r).map (·.1)).Nodup := hascending.imp ne_of_lt
    have hlength : (k.attributes r).length = r.attributeNames.dedup.length := by
      have hperm := (List.perm_ext_iff_of_nodup hnodup (List.nodup_dedup r.attributeNames)).2 fun key => by
        rw [hkeys, List.mem_dedup]
      rw [← hperm.length_eq, List.length_map]
    have hall : r.attributeNames.length = (r.metrics.map fun m => if m.kind.isCounter then 1 else 2).sum := by
      rw [Registry.attributeNames, List.length_flatMap]
      exact congrArg List.sum (List.map_congr_left fun m _ => m.length_attributeNames)
    rw [hlength, ← hall, ← hr.nodup_attributeNames]
    constructor
    · intro heq
      exact List.dedup_eq_self.1 ((List.dedup_sublist _).eq_of_length heq)
    · intro hkeys
      rw [hkeys.dedup]

/-! ## Keys tell plain names -/

namespace Metric

/-- Whether a text, before which a word has begun or not, goes on without capitals `A` to `Z` and in words that are joined
by single underscores, behind which each begins with one of `a` to `z`. -/
def plainChars (started : Bool) : List Char → Bool
  | [] => true
  | '_' :: c :: rest => started && c.isLower && plainChars true rest
  | c :: rest => c != '_' && !c.isUpper && plainChars true rest

/-- The text that a text in camel case was made from, if that was plain. -/
def snakeChars (cs : List Char) : List Char := cs.flatMap fun c => if c.isUpper then ['_', c.toLower] else [c]

theorem snakeChars_append (cs ds : List Char) : snakeChars (cs ++ ds) = snakeChars cs ++ snakeChars ds :=
  List.flatMap_append

theorem upperChar_of_isLower {c : Char} (h : c.isLower = true) :
    c ≠ '_' ∧ ∃ d : Char, Text.upperChar c = [d] ∧ d.isUpper = true ∧ d.toLower = c := by
  have hcode : 97 ≤ c.toNat ∧ c.toNat ≤ 122 := by simpa [Char.isLower, UInt32.le_iff_toNat_le] using h
  have hletters : ∀ n < 26, Char.ofNat (97 + n) ≠ '_' ∧ (Char.ofNat (97 + n)).toUpper.isUpper = true ∧
      (Char.ofNat (97 + n)).toUpper.toLower = Char.ofNat (97 + n) := by
    decide
  obtain ⟨hunderscore, hupper, hlower⟩ := hletters (c.toNat - 97) (by omega)
  rw [Nat.add_sub_cancel' hcode.1, Char.ofNat_toNat] at hunderscore hupper hlower
  exact ⟨hunderscore, c.toUpper, if_pos (by omega), hupper, hlower⟩

theorem camelChars_cons {c : Char} (hc : c ≠ '_') (started raise : Bool) (rest : List Char) :
    camelChars started raise (c :: rest) =
      (if raise then Text.upperChar c else [c]) ++ camelChars true false rest := by
  rw [camelChars]
  exact hc

/-- A plain text is told by its camel case. -/
theorem snakeChars_camelChars {started : Bool} {cs : List Char} (h : plainChars started cs = true) :
    snakeChars (camelChars started false cs) = cs := by
  fun_induction plainChars started cs with
  | case1 => rfl
  | case2 started c rest ih =>
    obtain ⟨⟨rfl, hlower⟩, hrest⟩ : (started = true ∧ c.isLower = true) ∧ plainChars true rest = true := by
      simpa using h
    obtain ⟨hc, d, hd, hupper, htold⟩ := upperChar_of_isLower hlower
    rw [camelChars, camelChars_cons hc, if_pos rfl, hd, snakeChars_append, ih hrest]
    simp [snakeChars, hupper, htold]
  | case3 started c rest hnot ih =>
    obtain ⟨⟨hc, hupper⟩, hrest⟩ : (c ≠ '_' ∧ c.isUpper = false) ∧ plainChars true rest = true := by simpa using h
    rw [camelChars_cons hc, snakeChars_append, ih hrest]
    simp [snakeChars, hupper]

theorem camelChars_append {started : Bool} {cs : List Char} (h : plainChars started cs = true) (ds : List Char) :
    camelChars started false (cs ++ ds) =
      camelChars started false cs ++ camelChars (started || !cs.isEmpty) false ds := by
  fun_induction plainChars started cs with
  | case1 started => simp [camelChars]
  | case2 started c rest ih =>
    obtain ⟨⟨rfl, hlower⟩, hrest⟩ : (started = true ∧ c.isLower = true) ∧ plainChars true rest = true := by
      simpa using h
    obtain ⟨hc, -⟩ := upperChar_of_isLower hlower
    rw [List.cons_append, List.cons_append, camelChars, camelChars_cons hc, ih hrest, camelChars, camelChars_cons hc]
    simp
  | case3 started c rest hnot ih =>
    obtain ⟨⟨hc, -⟩, hrest⟩ : (c ≠ '_' ∧ c.isUpper = false) ∧ plainChars true rest = true := by simpa using h
    rw [List.cons_append, camelChars_cons hc, ih hrest, camelChars_cons hc]
    simp

/-- Whether a name consists of words without capitals that are joined by single underscores. -/
def isPlain (m : Metric) : Bool := plainChars false m.name.toList

theorem snakeChars_camelName (h : m.isPlain = true) : snakeChars m.camelName.toList = m.name.toList := by
  rw [camelName, String.toList_ofList]
  exact snakeChars_camelChars h

theorem snakeChars_count (h : m.isPlain = true) :
    snakeChars (m.camelName ++ "Count").toList = (m.name ++ "_count").toList := by
  rw [String.toList_append, snakeChars_append, snakeChars_camelName h, String.toList_append]
  rfl

theorem camelName_eq_iff (h : m.isPlain = true) (h' : m'.isPlain = true) :
    m.camelName = m'.camelName ↔ m.name = m'.name := by
  constructor
  · intro hkey
    rw [← String.toList_inj, ← snakeChars_camelName h, hkey, snakeChars_camelName h']
  · intro hname
    rw [camelName, hname, camelName]

theorem camelName_eq_count_iff (h : m.isPlain = true) (h' : m'.isPlain = true) :
    m'.camelName = m.camelName ++ "Count" ↔ m'.name = m.name ++ "_count" := by
  constructor
  · intro hkey
    rw [← String.toList_inj, ← snakeChars_camelName h', hkey, snakeChars_count h]
  · intro hname
    have hstarted : m.name.toList.isEmpty = false := by
      cases hm : m.name.toList with
      | cons c cs => rfl
      | nil =>
        -- nothing plain begins with an underscore
        rw [isPlain, hname, String.toList_append, hm] at h'
        cases h'
    have hcount : camelChars true false "_count".toList = "Count".toList := by decide
    have hchars : camelChars false false (m.name.toList ++ "_count".toList) =
        camelChars false false m.name.toList ++ "Count".toList := by
      rw [camelChars_append h, hstarted]
      exact congrArg _ hcount
    rw [camelName, hname, String.toList_append, hchars, String.ofList_append, String.ofList_toList, camelName]

end Metric

/-- Plain names are published apart, unless one is that of an event with `_count` behind it. -/
theorem sole_iff_of_plain (hr : r.Distinct) (hplain : ∀ m ∈ r.metrics, m.isPlain = true) :
    (∀ m ∈ r.metrics, r.Sole m) ↔
      ∀ m ∈ r.metrics, m.kind.isCounter = false → ∀ m' ∈ r.metrics, m'.name ≠ m.name ++ "_count" := by
  constructor
  · intro hsole m hm hevent m' hm' hname
    have hne : m' ≠ m := by
      rintro rfl
      have hlength := congrArg String.length hname
      have hcount : "_count".length = 6 := by decide
      rw [String.length_append, hcount] at hlength
      omega
    have hkey := (Metric.camelName_eq_count_iff (hplain m hm) (hplain m' hm')).2 hname
    exact hsole m hm m' hm' hne m'.camelName (Metric.mem_attributeNames.2 (Or.inl rfl))
      (Metric.mem_attributeNames.2 (Or.inr ⟨hevent, hkey⟩))
  · intro hfree m hm m' hm' hne key hkey' hkey
    have hname : m'.name ≠ m.name := fun heq => hne (List.inj_on_of_nodup_map hr.names hm' hm heq)
    rcases Metric.mem_attributeNames.1 hkey with rfl | ⟨hevent, rfl⟩
    · rcases Metric.mem_attributeNames.1 hkey' with heq | ⟨hevent', heq⟩
      · exact hname ((Metric.camelName_eq_iff (hplain m' hm') (hplain m hm)).1 heq.symm)
      · exact hfree m' hm' hevent' m hm ((Metric.camelName_eq_count_iff (hplain m' hm') (hplain m hm)).1 heq)
    · rcases Metric.mem_attributeNames.1 hkey' with heq | ⟨-, heq⟩
      · exact hfree m hm hevent m' hm' ((Metric.camelName_eq_count_iff (hplain m hm) (hplain m' hm')).1 heq.symm)
      · have hkey := congrArg String.toList heq
        rw [String.toList_append, String.toList_append] at hkey
        have hbase := String.toList_inj.1 (List.append_cancel_right hkey)
        exact hname ((Metric.camelName_eq_iff (hplain m' hm') (hplain m hm)).1 hbase.symm)

/-! ## After any calls -/

namespace Context

/-- Whatever is called on a context, a keeper of sums has what it heard and publishes it under the keys of the metrics,
the last one of each key. Each metric has its keys for itself exactly if there is an entry for every counter and there
are two for every event; with plain names that is so unless one is an event's with `_count` behind it. -/
theorem run_publishes (calls : List RegistryCall) {new : Context} (hnew : ofRegistry (Registry.run {} calls) = .ok new)
    (observers : List Observer) {i : Nat} (hi : observers[i]? = some (.totals (.create new.registry)))
    (later : List ContextCall) :
    let first : Context := { new with observers }
    let r := (first.run later).registry
    ∃ k, (first.run later).observers[i]? = some (.totals k) ∧ k.Sums r (first.heard i later) ∧ k.Publishes r ∧
      ((∀ m ∈ r.metrics, m.isPlain = true) → ((∀ m ∈ r.metrics, r.Sole m) ↔
        ∀ m ∈ r.metrics, m.kind.isCounter = false → ∀ m' ∈ r.metrics, m'.name ≠ m.name ++ "_count")) := by
  intro first r
  obtain ⟨standard, rfl⟩ := ofRegistry_eq hnew
  have hc : first.Coherent := ⟨List.nodup_nil, rfl⟩
  have hr : r = Registry.run {} calls := run_registry first later
  obtain ⟨k, hk, hsums⟩ := hc.run_sums hi later
  have hheard : k.Sums (Registry.run {} calls) (first.heard i later) := hsums _ [] (TotalKeeper.sums_create _ false)
  rw [hr]
  exact ⟨k, hk, hheard, TotalKeeper.publishes (Registry.numbered_empty.run calls) hheard.length,
    sole_iff_of_plain (Registry.distinct_empty.run calls)⟩

/-- The standard metrics are all published apart. -/
example : ∀ m ∈ Registry.standard.metrics, m.isPlain = true ∧ Registry.standard.Sole m := by decide +kernel

/-- The host counts tasks of its own, under the name of how many tasks of computers there were. -/
def taskCounts : List RegistryCall := [.registerStandard, .register "computer_tasks_count" .counter]

/-- A keeper of sums of these metrics. -/
def namesakes : Context :=
  { watched with
    registry := Registry.run {} taskCounts
    observers := [.totals (.create (Registry.run {} taskCounts))] }

/-- One task of a computer, and three of the host. -/
def hostTasks : List ContextCall :=
  let task : ContextCall := .observe ⟨1⟩ (.counter ⟨7, "computer_tasks_count", .counter⟩)
  [.start 0, .observe ⟨1⟩ (.event watched.standard.computerTasks 9), task, task, task]

/-- The time of the task is published, and how many tasks the host had. -/
theorem publishes_hostTasks : ∃ k : TotalKeeper, (namesakes.run hostTasks).observers[0]? = some (.totals k) ∧
    k.Publishes namesakes.registry ∧ k.attribute? namesakes.registry "computerTasks" = some 9 ∧
    k.attribute? namesakes.registry "computerTasksCount" = some 3 := by
  have hnew : ofRegistry (Registry.run {} taskCounts) = .ok { namesakes with observers := [] } :=
    ofRegistry_of_lookup (by decide +kernel)
  obtain ⟨k, hk, hsums, hpublishes, -⟩ := run_publishes taskCounts hnew namesakes.observers (i := 0) rfl hostTasks
  obtain ⟨t, ht, hread⟩ := hpublishes.latest watched.standard.computerTasks (by decide +kernel)
  obtain ⟨t', ht', hread'⟩ := hpublishes.latest ⟨7, "computer_tasks_count", .counter⟩ (by decide +kernel)
  have htime := hread "computerTasks" t.value (TotalKeeper.mem_attributesOf_event rfl t).2 (by decide +kernel)
  have hcount := hread' "computerTasksCount" t'.count (TotalKeeper.mem_attributesOf_counter rfl t') (by decide +kernel)
  have hnine : wrapWord (valuesAt 0 (namesakes.heard 0 hostTasks)).sum = 9 := by decide +kernel
  have hthree : wrapWord (observationsAt 7 (namesakes.heard 0 hostTasks)).length = 3 := by decide +kernel
  rw [(hsums.value 0 t ht).trans hnine] at htime
  rw [(hsums.count 7 t' ht').trans hthree] at hcount
  exact ⟨k, hk, hpublishes, htime, hcount⟩

/-- How often a computer had a task cannot be read: there are eleven keys to publish, and ten entries. -/
theorem count_is_hidden :
    namesakes.registry.attributeNames.length = 11 ∧
      ((namesakes.run hostTasks).observers[0]?.map fun (o : Observer) => match o with
        | .totals k => (k.totals[0]?, k.attribute? namesakes.registry "computerTasksCount",
            (k.attributes namesakes.registry).length)
        | _ => (none, none, 0)) = some (some ⟨9, 1⟩, some 3, 10) := by
  decide +kernel

end Context

end FairShare.Metrics
