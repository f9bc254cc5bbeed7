import FairShare.Proofs.Agreement

/-!
# Totals that come round

Whatever is called on a context, a keeper of sums has what it heard while it was registered, up to whole rounds of a
word. One observation adds at most one word. So a total goes back exactly when the true sum begins another round, and as
long as it has not begun one, the total is the sum and never goes back. A record of the same observations stops at the
largest word instead.
-/

namespace FairShare

/-- How often a number has come round, if a word holds it. -/
def rounds (n : Nat) : Nat := n / (maxWord + 1)

theorem rounds_eq_zero_iff {n : Nat} : rounds n = 0 ↔ n ≤ maxWord := by
  unfold rounds maxWord
  omega

/-- A number that grows by at most a word is seen to shrink when it comes round. -/
theorem wrapWord_lt_iff {n n' : Nat} (hle : n ≤ n') (hword : n' ≤ n + maxWord) :
    wrapWord n' < wrapWord n ↔ rounds n < rounds n' := by
  unfold maxWord at hword
  unfold wrapWord rounds maxWord
  omega

namespace Metrics

variable {i : Nat}

/-! ## What one more observation adds -/

theorem length_observationsAt_append (i : Nat) (os : List Observation) (o? : Option Observation) :
    (observationsAt i os).length ≤ (observationsAt i (os ++ o?.toList)).length ∧
      (observationsAt i (os ++ o?.toList)).length ≤ (observationsAt i os).length + maxWord := by
  cases o? with
  | none => simp
  | some o =>
    rw [Option.toList_some, observationsAt_concat, List.length_append]
    split <;> simp [maxWord]

theorem sum_valuesAt_append (i : Nat) (os : List Observation) (o? : Option Observation) :
    (valuesAt i os).sum ≤ (valuesAt i (os ++ o?.toList)).sum ∧
      (valuesAt i (os ++ o?.toList)).sum ≤ (valuesAt i os).sum + maxWord := by
  cases o? with
  | none => simp
  | some o =>
    cases o with
    | counter m => simp [valuesAt_counter]
    | event m value =>
      have hword : value.toNat ≤ maxWord := Nat.le_of_lt_succ value.toNat_lt
      rw [Option.toList_some, valuesAt_event, List.sum_append]
      split <;> simp [hword]

/-! ## What a keeper of sums has heard -/

namespace TotalKeeper

theorem Sums.congr {k k' : TotalKeeper} {r : Registry} {os : List Observation} (h : k.Sums r os)
    (hk : k'.totals = k.totals) : k'.Sums r os :=
  ⟨hk ▸ h.length, hk ▸ h.count, hk ▸ h.value⟩

end TotalKeeper

namespace Context

variable {c : Context} {k : TotalKeeper}

/-- What an observer hears of a call: an observation, while it is registered. -/
def heard? (c : Context) (i : Nat) (x : ContextCall) : Option Observation :=
  if i ∈ c.registered then x.observed?.map (·.2) else none

theorem heard?_eq_none {x : ContextCall} (h : x.observed? = none) : c.heard? i x = none := by
  rw [heard?, h, Option.map_none, ite_self]

/-- What an observer hears of a sequence of calls. -/
def heard (c : Context) (i : Nat) : List ContextCall → List Observation
  | [] => []
  | x :: xs => (c.heard? i x).toList ++ (c.after x).heard i xs

theorem heard_concat (c : Context) (i : Nat) (xs : List ContextCall) (x : ContextCall) :
    c.heard i (xs ++ [x]) = c.heard i xs ++ ((c.run xs).heard? i x).toList := by
  induction xs generalizing c with
  | nil => simp [heard, run]
  | cons y ys ih =>
    rw [List.cons_append, heard, ih, heard, List.append_assoc]
    rfl

/-- A keeper of sums takes in what it hears, and no other call does anything to its totals. -/
theorem Coherent.after_totals (hc : c.Coherent) (hk : c.observers[i]? = some (.totals k)) (x : ContextCall) :
    ∃ k', (c.after x).observers[i]? = some (.totals k') ∧
      k'.totals = (c.heard? i x).elim k.totals fun o => (k.hear (.observed o)).totals := by
  -- the mark of an observer that is started or stopped
  have hmark : ∀ (j : Nat) (on : Bool), ∃ k' : TotalKeeper,
      (c.setTracking j on).1.observers[i]? = some (.totals k') ∧ k'.totals = k.totals := by
    intro j on
    rw [setTracking_observers, List.getElem?_modify, hk]
    by_cases hj : j = i
    · exact ⟨{ k with tracking := on }, by simp [hj, Observer.setTracking], rfl⟩
    · exact ⟨k, by simp [hj], rfl⟩
  cases x with
  | start j =>
    rw [Context.after, start_observers, heard?_eq_none rfl]
    exact hmark j true
  | stop j =>
    rw [Context.after, stop_observers, heard?_eq_none rfl]
    exact hmark j false
  | add j =>
    rw [Context.after, addObserver_observers, heard?_eq_none rfl]
    exact ⟨k, hk, rfl⟩
  | remove j =>
    rw [heard?_eq_none rfl]
    exact ⟨k, hk, rfl⟩
  | shutdown =>
    rw [heard?_eq_none rfl]
    exact ⟨k, hk, rfl⟩
  | unload computer =>
    rw [Context.after, computerUnloaded, hc.broadcast_getElem?, hk, heard?_eq_none rfl]
    exact ⟨k, by split <;> rfl, rfl⟩
  | observe computer o =>
    rw [Context.after, hc.observe_eq, hc.broadcast_getElem?, hk, heard?]
    by_cases hi : i ∈ c.registered
    · rw [if_pos hi, if_pos hi]
      exact ⟨k.hear (.observed o), rfl, rfl⟩
    · rw [if_neg hi, if_neg hi]
      exact ⟨k, rfl, rfl⟩

theorem Coherent.after_sums (hc : c.Coherent) (hk : c.observers[i]? = some (.totals k)) (x : ContextCall) :
    ∃ k', (c.after x).observers[i]? = some (.totals k') ∧
      (∀ r os, k.Sums r os → k'.Sums r (os ++ (c.heard? i x).toList)) ∧
      ((∀ computer o, x ≠ .observe computer o) → k'.totals = k.totals) := by
  obtain ⟨k', hk', htotals⟩ := hc.after_totals hk x
  refine ⟨k', hk', fun r os h => ?_, fun hother => ?_⟩
  · cases hheard : c.heard? i x with
    | none =>
      rw [hheard] at htotals
      rw [Option.toList_none, List.append_nil]
      exact h.congr htotals
    | some o =>
      rw [hheard] at htotals
      exact (h.hear o).congr htotals
  · have hsilent : x.observed? = none := by
      cases x with
      | observe computer o => exact absurd rfl (hother computer o)
      | _ => rfl
    rw [htotals, heard?_eq_none hsilent, Option.elim_none]

/-- After a sequence of calls a keeper of sums has what it heard of them. -/
theorem Coherent.run_sums (hc : c.Coherent) (hk : c.observers[i]? = some (.totals k)) (calls : List ContextCall) :
    ∃ k', (c.run calls).observers[i]? = some (.totals k') ∧
      ∀ r os, k.Sums r os → k'.Sums r (os ++ c.heard i calls) := by
  induction calls generalizing c k with
  | nil => exact ⟨k, hk, fun r os h => by rwa [heard, List.append_nil]⟩
  | cons x calls ih =>
    obtain ⟨k', hk', hafter, -⟩ := hc.after_sums hk x
    obtain ⟨k'', hk'', hrun⟩ := ih (hc.after x) hk'
    refine ⟨k'', hk'', fun r os h => ?_⟩
    rw [heard, ← List.append_assoc]
    exact hrun r _ (hafter r os h)

end Context

/-! ## From one moment to the next -/

/-- A word that comes round, at two moments, and one that stops, at the second. At the first moment a number has come to
`n` and at the second to `n'`. -/
structure RollsOver (w w' stopped : UInt64) (n n' : Nat) : Prop where
  /-- The one goes back exactly when the number begins another round. -/
  back : w' < w ↔ rounds n < rounds n'
  /-- Before that both of them are the number. -/
  alike : rounds n' = 0 → w'.toNat = n' ∧ stopped.toNat = n'
  apart : 0 < rounds n' → w'.toNat = wrapWord n' ∧ stopped.toNat = maxWord

theorem rollsOver {w w' stopped : UInt64} {n n' : Nat} (hw : w.toNat = wrapWord n) (hw' : w'.toNat = wrapWord n')
    (hstopped : stopped.toNat = clampWord n') (hle : n ≤ n') (hword : n' ≤ n + maxWord) :
    RollsOver w w' stopped n n' := by
  constructor
  case back => rw [UInt64.lt_iff_toNat_lt, hw, hw', wrapWord_lt_iff hle hword]
  case alike =>
    intro hround
    have hfits := rounds_eq_zero_iff.1 hround
    exact ⟨hw'.trans (wrapWord_of_le hfits), hstopped.trans (clampWord_of_le hfits)⟩
  case apart =>
    intro hround
    have hover : ¬n' ≤ maxWord := mt rounds_eq_zero_iff.2 (Nat.ne_of_gt hround)
    exact ⟨hw', hstopped.trans (Nat.min_eq_right (Nat.le_of_not_le hover))⟩

/-- From any moment to the next a total goes back exactly when the true sum comes round, and starts and stops leave it.
Until then it is the sum, as in a record of the same observations, which stops at the largest word. -/
theorem run_rollsOver (calls : List RegistryCall) {new : Context}
    (hnew : Context.ofRegistry (Registry.run {} calls) = .ok new) (observers : List Observer)
    (hi : observers[i]? = some (.totals (.create new.registry))) (earlier : List ContextCall) (x : ContextCall)
    (computer : ComputerId) :
    let first : Context := { new with observers }
    let before := first.heard i earlier
    let after := first.heard i (earlier ++ [x])
    let record := Record.replay computer after
    ∃ k k', (first.run earlier).observers[i]? = some (.totals k) ∧
      (first.run (earlier ++ [x])).observers[i]? = some (.totals k') ∧
      ((∀ d o, x ≠ .observe d o) → k'.totals = k.totals) ∧
      ∀ m ∈ new.registry.metrics, ∃ t t', k.totals[m.id]? = some t ∧ k'.totals[m.id]? = some t' ∧
        RollsOver t.value t'.value (Record.place record.totals m.id) (valuesAt m.id before).sum
          (valuesAt m.id after).sum ∧
        RollsOver t.count t'.count (Record.place record.counts m.id) (observationsAt m.id before).length
          (observationsAt m.id after).length := by
  intro first before after record
  obtain ⟨standard, rfl⟩ := Context.ofRegistry_eq hnew
  have hc : first.Coherent := ⟨List.nodup_nil, rfl⟩
  obtain ⟨k, hk, hsums⟩ := hc.run_sums hi earlier
  obtain ⟨k', hk', hnext, hkept⟩ := (hc.run earlier).after_sums hk x
  have hbefore : k.Sums (Registry.run {} calls) before := hsums _ [] (TotalKeeper.sums_create _ false)
  have hsplit : after = before ++ ((first.run earlier).heard? i x).toList := first.heard_concat i earlier x
  have hafter : k'.Sums (Registry.run {} calls) after := hsplit ▸ hnext _ _ hbefore
  have hrecord : record.Holds after := Record.replay_holds computer after
  rw [← Context.run_concat] at hk'
  refine ⟨k, k', hk, hk', hkept, fun m hm => ?_⟩
  -- there is a total of every metric
  obtain ⟨hlt, -⟩ := List.getElem?_eq_some_iff.1 ((Registry.numbered_empty.run calls).get?_id hm)
  have ht := List.getElem?_eq_getElem (hbefore.length ▸ hlt)
  have ht' := List.getElem?_eq_getElem (hafter.length ▸ hlt)
  have hvalues := sum_valuesAt_append m.id before ((first.run earlier).heard? i x)
  have hcounts := length_observationsAt_append m.id before ((first.run earlier).heard? i x)
  rw [← hsplit] at hvalues hcounts
  exact ⟨_, _, ht, ht',
    rollsOver (hbefore.value _ _ ht) (hafter.value _ _ ht') (hrecord.totals _) hvalues.1 hvalues.2,
    rollsOver (hbefore.count _ _ ht) (hafter.count _ _ ht') (hrecord.counts _) hcounts.1 hcounts.2⟩

namespace Context

/-- Both keepers are started, and one observation brings a sum to the largest word. -/
def brimful : List ContextCall :=
  [.start 0, .start 1, .observe ⟨1⟩ (.event watched.standard.computerTasks 18446744073709551615)]

/-- One more nanosecond. -/
def oneMore : ContextCall := .observe ⟨1⟩ (.event watched.standard.computerTasks 1)

/-- The total of the task times begins another round. -/
theorem rollsOver_oneMore : ∃ (k k' : TotalKeeper) (t t' : Total),
    (twoKeepers.run brimful).observers[1]? = some (.totals k) ∧
    (twoKeepers.run (brimful ++ [oneMore])).observers[1]? = some (.totals k') ∧ k.totals[0]? = some t ∧
    k'.totals[0]? = some t' ∧ t'.value < t.value ∧
    RollsOver t.value t'.value 18446744073709551615 18446744073709551615 18446744073709551616 := by
  obtain ⟨k, k', hk, hk', -, hall⟩ := run_rollsOver [.registerStandard] ofRegistry_standard twoKeepers.observers
    (i := 1) rfl brimful oneMore ⟨1⟩
  obtain ⟨t, t', ht, ht', hvalue, -⟩ := hall watched.standard.computerTasks (by decide +kernel)
  have hbefore : (valuesAt 0 (twoKeepers.heard 1 brimful)).sum = 18446744073709551615 := by decide +kernel
  have hafter : (valuesAt 0 (twoKeepers.heard 1 (brimful ++ [oneMore]))).sum = 18446744073709551616 := by
    decide +kernel
  have hrecord : Record.place (Record.replay ⟨1⟩ (twoKeepers.heard 1 (brimful ++ [oneMore]))).totals 0 =
      18446744073709551615 := by
    decide +kernel
  have hrolls : RollsOver t.value t'.value
      (Record.place (Record.replay ⟨1⟩ (twoKeepers.heard 1 (brimful ++ [oneMore]))).totals 0)
      (valuesAt 0 (twoKeepers.heard 1 brimful)).sum
      (valuesAt 0 (twoKeepers.heard 1 (brimful ++ [oneMore]))).sum := hvalue
  rw [hrecord, hbefore, hafter] at hrolls
  exact ⟨k, k', t, t', hk, hk', ht, ht', hrolls.back.2 (by decide), hrolls⟩

/-- The sum is published as nothing, while the record still tells the largest word. -/
theorem total_goes_back :
    ((twoKeepers.run brimful).observers[1]?.map fun (o : Observer) => match o with
      | .totals k => k.attribute? .standard "computerTasks"
      | _ => none) = some (some maxWord) ∧
    ((twoKeepers.run (brimful ++ [oneMore])).observers[1]?.map fun (o : Observer) => match o with
      | .totals k => k.attribute? .standard "computerTasks"
      | _ => none) = some (some 0) ∧
    ((twoKeepers.run (brimful ++ [oneMore])).observers[0]?.map fun (o : Observer) => match o with
      | .records k => k.sum watched.standard.computerTasks .none
      | _ => 0) = some maxWord := by
  decide +kernel

end Context

end Metrics

end FairShare
