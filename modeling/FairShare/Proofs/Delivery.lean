import FairShare.Proofs.Replay

/-!
# Who is told what

Whatever is passed on reaches each observer that is registered at that moment once, in the order in which the present
registrations were made, whoever of them fails. So an observer is told, in order, what happened while it was
registered, and nothing else.
-/

namespace FairShare.Metrics

/-- What observers are told by a call. -/
def ContextCall.message? : ContextCall → Option (ComputerId × Call)
  | .observe computer o => some (computer, .observed o)
  | .unload computer => some (computer, .unloaded)
  | _ => none

/-- Who was told what. -/
def Note.telling? : Note → Option (Nat × ComputerId × Call)
  | told i computer call => some (i, computer, call)
  | _ => none

/-- What an observer was told. -/
def Note.toldTo? (i : Nat) (n : Note) : Option (ComputerId × Call) :=
  n.telling?.bind fun (j, message) => if j = i then some message else none

theorem filterMap_toldTo? (notes : List Note) (i : Nat) : notes.filterMap (Note.toldTo? i) =
    (notes.filterMap Note.telling?).filterMap fun (j, message) => if j = i then some message else none := by
  rw [List.filterMap_filterMap]
  rfl

namespace Context

variable {c : Context} {computer : ComputerId} {call : Call}

/-- Whether an observer does anything when told something. -/
def listens (c : Context) (i : Nat) (call : Call) : Bool := c.observers[i]?.any (·.hears call)

/-- Whether an observer fails when told something. -/
def failsOn (c : Context) (i : Nat) (call : Call) : Bool := c.observers[i]?.any (·.failsOn call)

/-! ## One message -/

theorem tell_notes (c : Context) (computer : ComputerId) (call : Call) (i : Nat) :
    (tell computer call c.observers i).2 =
      (if c.listens i call then [.told i computer call] else []) ++
        if c.failsOn i call then [.failed computer] else [] := by
  unfold tell listens failsOn
  cases c.observers[i]? <;> rfl

/-- What one observer is told does not change what the others are told. -/
theorem tellAll_notes {is : List Nat} (h : is.Nodup) (observers : List Observer) :
    (tellAll computer call observers is).2 = is.flatMap fun i => (tell computer call observers i).2 := by
  induction is generalizing observers with
  | nil => rfl
  | cons i is ih =>
    obtain ⟨hi, hd⟩ := List.nodup_cons.1 h
    show (tell computer call observers i).2 ++ (tellAll computer call (tell computer call observers i).1 is).2 = _
    rw [ih hd, List.flatMap_cons, tell_observers]
    congr 1
    refine List.flatMap_congr fun j hj => ?_
    have hij : i ≠ j := fun heq => hi (heq ▸ hj)
    unfold tell
    rw [List.getElem?_modify_ne _ _ hij]
    cases observers[j]? <;> rfl

theorem Coherent.broadcast_notes (h : c.Coherent) (computer : ComputerId) (call : Call) :
    (c.broadcast computer call).2 = c.registered.flatMap fun i =>
      (if c.listens i call then [.told i computer call] else []) ++
        if c.failsOn i call then [.failed computer] else [] := by
  show (tellAll computer call c.observers c.registered).2 = _
  rw [tellAll_notes h.distinct]
  exact List.flatMap_congr fun i _ => tell_notes c computer call i

/-- Nothing is noted of an observation either if nobody looks at the mark. -/
theorem Coherent.observe_notes (h : c.Coherent) (computer : ComputerId) (o : Observation) :
    (c.observe computer o).2 = (c.broadcast computer (.observed o)).2 := by
  unfold observe
  split
  case isTrue => rfl
  case isFalse hoff =>
    have hnone : c.registered = [] := by simpa [h.marked] using hoff
    rw [h.broadcast_notes, hnone]
    rfl

/-- A call that has a message passes it on. -/
theorem Coherent.passes_on (h : c.Coherent) {x : ContextCall} (hx : x.message? = some (computer, call)) :
    c.after x = (c.broadcast computer call).1 ∧ c.notes x = (c.broadcast computer call).2 := by
  cases x <;> simp only [ContextCall.message?, Option.some.injEq, Prod.mk.injEq, reduceCtorEq] at hx
  case observe =>
    obtain ⟨rfl, rfl⟩ := hx
    exact ⟨h.observe_eq .., h.observe_notes ..⟩
  case unload =>
    obtain ⟨rfl, rfl⟩ := hx
    exact ⟨rfl, rfl⟩

/-- A call that has no message tells nobody anything. -/
theorem telling?_of_quiet (c : Context) {x : ContextCall} (hx : x.message? = none) :
    (c.notes x).filterMap Note.telling? = [] := by
  cases x with
  | observe computer o => cases hx
  | unload computer => cases hx
  | _ => rfl

theorem toldTo?_of_quiet (c : Context) {x : ContextCall} (hx : x.message? = none) (i : Nat) :
    (c.notes x).filterMap (Note.toldTo? i) = [] := by
  rw [filterMap_toldTo?, telling?_of_quiet c hx, List.filterMap_nil]

/-- Those who are told something are told it once, whoever fails. -/
theorem Coherent.tellings (h : c.Coherent) (computer : ComputerId) (call : Call) :
    (c.broadcast computer call).2.filterMap Note.telling? =
      (c.registered.filter (c.listens · call)).map fun i => (i, computer, call) := by
  rw [h.broadcast_notes, List.filterMap_flatMap]
  induction c.registered with
  | nil => rfl
  | cons i is ih =>
    rw [List.flatMap_cons, ih, List.filterMap_append]
    by_cases hi : c.listens i call = true <;> by_cases hf : c.failsOn i call = true <;> simp [hi, hf, Note.telling?]

/-- Among those who are told something once, everybody finds it once. -/
theorem filterMap_tellings {is : List Nat} (h : is.Nodup) (i : Nat) (message : ComputerId × Call) :
    (is.map fun j => (j, message)).filterMap (fun (j, m) => if j = i then some m else none) =
      if i ∈ is then [message] else [] := by
  induction is with
  | nil => rfl
  | cons j is ih =>
    obtain ⟨hj, hd⟩ := List.nodup_cons.1 h
    rw [List.map_cons, List.filterMap_cons, ih hd]
    by_cases hij : j = i
    · subst hij
      simp [hj]
    · simp [hij, Ne.symm hij]

/-- An observer is told a message once if it is registered and listens. -/
theorem Coherent.broadcast_toldTo (h : c.Coherent) (computer : ComputerId) (call : Call) (i : Nat) :
    (c.broadcast computer call).2.filterMap (Note.toldTo? i) =
      if i ∈ c.registered ∧ c.listens i call = true then [(computer, call)] else [] := by
  rw [filterMap_toldTo?, h.tellings, filterMap_tellings (h.distinct.filter _)]
  simp only [List.mem_filter]

/-! ## Who is registered -/

/-- Who is registered after a call. -/
def roll (c : Context) : ContextCall → List Nat
  | .start i => if c.tracks i ∨ i ∈ c.registered then c.registered else c.registered ++ [i]
  | .stop i => if c.tracks i then c.registered.filter (· != i) else c.registered
  | .add i => if i ∈ c.registered then c.registered else c.registered ++ [i]
  | .remove i => c.registered.filter (· != i)
  | .shutdown => []
  | .observe _ _ | .unload _ => c.registered

theorem setTracking_snd (c : Context) (i : Nat) (on : Bool) : (c.setTracking i on).2 = c.tracks i := by
  unfold setTracking tracks
  cases c.observers[i]? <;> rfl

theorem start_registered (c : Context) (i : Nat) :
    (c.start i).1.registered = if c.tracks i then c.registered else (c.addObserver i).1.registered := by
  rw [← setTracking_snd c i true, addObserver_registered, ← setTracking_registered c i true]
  unfold start
  cases h : c.setTracking i true with
  | mk c' was => cases was <;> simp [addObserver_registered]

theorem stop_registered (c : Context) (i : Nat) :
    (c.stop i).1.registered = if c.tracks i then c.registered.filter (· != i) else c.registered := by
  rw [← setTracking_snd c i false, ← setTracking_registered c i false]
  unfold stop
  cases h : c.setTracking i false with
  | mk c' was => cases was <;> simp

theorem after_registered (c : Context) (call : ContextCall) : (c.after call).registered = c.roll call := by
  cases call with
  | start i =>
    rw [Context.after, start_registered, addObserver_registered, roll]
    by_cases ht : c.tracks i = true <;> simp [ht]
  | stop i => exact stop_registered c i
  | add i => exact addObserver_registered c i
  | remove i => rfl
  | observe computer o =>
    simp only [Context.after, observe, roll]
    split <;> rfl
  | unload computer => rfl
  | shutdown => rfl

/-! ## Observers that fail now and then -/

section Fails

variable (c : Context) (fails : Nat → Bool)

theorem withFails_getElem? (i : Nat) :
    (c.withFails fails).observers[i]? = c.observers[i]?.map (·.withFails (fails i)) := by
  rw [withFails, List.getElem?_mapIdx]

/-- Who fails has nothing to do with who is registered, tracks or listens. -/
theorem withFails_tracks (i : Nat) : (c.withFails fails).tracks i = c.tracks i := by
  rw [tracks, withFails_getElem?, tracks]
  cases c.observers[i]? with
  | none => rfl
  | some o => cases o <;> rfl

theorem withFails_listens (i : Nat) (call : Call) : (c.withFails fails).listens i call = c.listens i call := by
  rw [listens, withFails_getElem?, listens]
  cases c.observers[i]? with
  | none => rfl
  | some o => cases o <;> rfl

theorem withFails_roll (x : ContextCall) : (c.withFails fails).roll x = c.roll x := by
  cases x <;> simp only [roll, withFails_tracks] <;> rfl

end Fails

theorem Coherent.withFails (h : c.Coherent) (fails : Nat → Bool) : (c.withFails fails).Coherent :=
  ⟨h.distinct, h.marked⟩

theorem meet_registered (c : Context) (x : Occasion) : (c.meet x).registered = c.roll x.call := by
  rw [meet, after_registered, withFails_roll]

theorem Coherent.meet (h : c.Coherent) (x : Occasion) : (c.meet x).Coherent := (h.withFails x.fails).after x.call

theorem Coherent.meetAll (h : c.Coherent) (xs : List Occasion) : (c.meetAll xs).Coherent := by
  induction xs generalizing c with
  | nil => exact h
  | cons x xs ih => exact ih (h.meet x)

theorem meetAll_concat (c : Context) (xs : List Occasion) (x : Occasion) :
    c.meetAll (xs ++ [x]) = (c.meetAll xs).meet x := by
  simp [meetAll]

/-! ## What an observer is told in the course of time -/

theorem hear_hears (o : Observer) (computer : ComputerId) (call other : Call) :
    (o.hear computer call).hears other = o.hears other := by
  cases o <;> rfl

theorem setTracking_hears (o : Observer) (on : Bool) (call : Call) : (o.setTracking on).hears call = o.hears call := by
  cases o <;> rfl

theorem setTracking_listens (c : Context) (j : Nat) (on : Bool) (i : Nat) (call : Call) :
    (c.setTracking j on).1.listens i call = c.listens i call := by
  rw [listens, setTracking_observers, List.getElem?_modify, listens]
  cases c.observers[i]? with
  | none => rfl
  | some o => by_cases hij : j = i <;> simp [hij, setTracking_hears]

theorem Coherent.broadcast_listens (h : c.Coherent) (computer : ComputerId) (call : Call) (i : Nat) (other : Call) :
    (c.broadcast computer call).1.listens i other = c.listens i other := by
  rw [listens, h.broadcast_getElem?, listens]
  cases c.observers[i]? with
  | none => simp
  | some o => by_cases hi : i ∈ c.registered <;> simp [hi, hear_hears]

/-- Whoever listens to something listens to it ever after. -/
theorem Coherent.meet_listens (h : c.Coherent) (x : Occasion) (i : Nat) (call : Call) :
    (c.meet x).listens i call = c.listens i call := by
  rw [← withFails_listens c x.fails, Context.meet]
  have h := h.withFails x.fails
  generalize c.withFails x.fails = c at h
  cases x.call with
  | start j =>
    rw [Context.after, listens, start_observers]
    exact setTracking_listens c j true i call
  | stop j =>
    rw [Context.after, listens, stop_observers]
    exact setTracking_listens c j false i call
  | add j => rw [Context.after, listens, addObserver_observers, listens]
  | remove j => rfl
  | observe computer o =>
    simp only [Context.after, h.observe_eq]
    exact h.broadcast_listens ..
  | unload computer => exact h.broadcast_listens ..
  | shutdown => rfl

/-- What is passed on while an observer is registered. -/
def witnessed (c : Context) (i : Nat) : List Occasion → List (ComputerId × Call)
  | [] => []
  | x :: xs => (if i ∈ c.registered then x.call.message? else none).toList ++ (c.meet x).witnessed i xs

theorem Coherent.toldTo (h : c.Coherent) (x : Occasion) (i : Nat) :
    (c.notesAt x).filterMap (Note.toldTo? i) =
      (if i ∈ c.registered then x.call.message? else none).toList.filter fun m => c.listens i m.2 := by
  have hf := h.withFails x.fails
  rw [notesAt]
  cases hx : x.call.message? with
  | none =>
    rw [toldTo?_of_quiet _ hx]
    simp
  | some message =>
    obtain ⟨computer, call⟩ := message
    rw [(hf.passes_on hx).2, hf.broadcast_toldTo, withFails_listens]
    show (if i ∈ c.registered ∧ _ then _ else _) = _
    by_cases hi : i ∈ c.registered <;> by_cases hl : c.listens i call = true <;> simp [hi, hl]

/-- An observer is told what it witnesses, in order. -/
theorem Coherent.received (h : c.Coherent) (i : Nat) (xs : List Occasion) :
    (c.transcript xs).filterMap (Note.toldTo? i) = (c.witnessed i xs).filter fun m => c.listens i m.2 := by
  induction xs generalizing c with
  | nil => rfl
  | cons x xs ih =>
    rw [transcript, witnessed, List.filterMap_append, List.filter_append, h.toldTo, ih (h.meet x)]
    simp only [h.meet_listens]

/-! ## In which order -/

/-- The present registration of an observer was made before that of another one: at some moment it was registered, and
has been since, and the other one was not. -/
def Precedes (c : Context) (xs : List Occasion) (i j : Nat) : Prop :=
  ∃ before after, xs = before ++ after ∧ j ∉ (c.meetAll before).registered ∧
    ∀ middle, middle <+: after → i ∈ (c.meetAll (before ++ middle)).registered

theorem Precedes.concat {xs : List Occasion} {i j : Nat} (h : c.Precedes xs i j) {x : Occasion}
    (hi : i ∈ (c.meetAll (xs ++ [x])).registered) : c.Precedes (xs ++ [x]) i j := by
  obtain ⟨before, after, rfl, hj, hsince⟩ := h
  refine ⟨before, after ++ [x], by simp, hj, fun middle hmiddle => ?_⟩
  rcases List.prefix_concat_iff.1 hmiddle with rfl | hmiddle
  · simpa using hi
  · exact hsince middle hmiddle

/-- A call takes observers off, or registers one behind all others. -/
theorem roll_cases (c : Context) (call : ContextCall) :
    (c.roll call).Sublist c.registered ∨ ∃ i, i ∉ c.registered ∧ c.roll call = c.registered ++ [i] := by
  cases call with
  | start i =>
    rw [roll]
    split
    case isTrue => exact Or.inl (List.Sublist.refl _)
    case isFalse h => exact Or.inr ⟨i, fun hi => h (Or.inr hi), rfl⟩
  | stop i =>
    rw [roll]
    split
    case isTrue => exact Or.inl List.filter_sublist
    case isFalse => exact Or.inl (List.Sublist.refl _)
  | add i =>
    rw [roll]
    split
    case isTrue => exact Or.inl (List.Sublist.refl _)
    case isFalse h => exact Or.inr ⟨i, h, rfl⟩
  | remove i => exact Or.inl List.filter_sublist
  | shutdown => exact Or.inl (List.nil_sublist _)
  | _ => exact Or.inl (List.Sublist.refl _)

theorem ordered_meetAll (hnone : c.registered = []) (xs : List Occasion) :
    (c.meetAll xs).registered.Pairwise (c.Precedes xs) := by
  induction xs using List.reverseRecOn with
  | nil =>
    show c.registered.Pairwise _
    rw [hnone]
    exact List.Pairwise.nil
  | append_singleton xs x ih =>
    have hnow : (c.meetAll (xs ++ [x])).registered = (c.meetAll xs).roll x.call := by
      rw [meetAll_concat, meet_registered]
    have hkeep : ∀ {i j}, i ∈ (c.meetAll xs).roll x.call → c.Precedes xs i j → c.Precedes (xs ++ [x]) i j :=
      fun hi h => h.concat (hnow ▸ hi)
    rw [hnow]
    rcases (c.meetAll xs).roll_cases x.call with hsub | ⟨j, hj, hroll⟩
    · exact (ih.sublist hsub).imp_of_mem fun hi _ h => hkeep hi h
    · have hold : ∀ i ∈ (c.meetAll xs).registered, i ∈ (c.meetAll xs).roll x.call := fun i hi =>
        hroll ▸ List.mem_append_left _ hi
      rw [hroll]
      refine List.pairwise_append.2 ⟨ih.imp_of_mem fun hi _ h => hkeep (hold _ hi) h, List.pairwise_singleton _ _, ?_⟩
      intro i hi j' hj'
      obtain rfl := List.mem_singleton.1 hj'
      -- whoever was registered before the call has been since, and the new one was not registered then
      refine ⟨xs, [x], rfl, hj, fun middle hmiddle => ?_⟩
      rcases List.prefix_cons_iff.1 hmiddle with rfl | ⟨rest, rfl, hrest⟩
      · simpa using hi
      · obtain rfl := List.prefix_nil.1 hrest
        rw [hnow]
        exact hold i hi

/-! ## The whole -/

/-- Who is registered after some occasions, and in which order. -/
structure Rostered (c : Context) (xs : List Occasion) : Prop where
  distinct : (c.meetAll xs).registered.Nodup
  /-- The mark says whether there are any. -/
  enabled : (c.meetAll xs).enabled = true ↔ 0 < (c.meetAll xs).observerCount
  /-- They stand in the order in which their present registrations were made. -/
  ordered : (c.meetAll xs).registered.Pairwise (c.Precedes xs)

/-- What comes of an occasion. -/
structure Delivers (c : Context) (x : Occasion) : Prop where
  /-- The rest stays in order. -/
  registered : (c.meet x).registered = c.roll x.call
  /-- Whoever registers an observer or takes it off is told whether that changed anything. -/
  answered : ∀ i, x.call = .add i ∨ x.call = .remove i →
    ∃ changed, (c.withFails x.fails).answer? x.call = some changed ∧
    (changed = true ↔ ∃ j, ¬(j ∈ (c.meet x).registered ↔ j ∈ c.registered))
  /-- Everybody who is registered and listens is told once, and nobody else is, whoever fails. -/
  told : ∀ computer call, x.call.message? = some (computer, call) →
    (c.notesAt x).filterMap Note.telling? = (c.registered.filter (c.listens · call)).map fun i => (i, computer, call)
  /-- A failure is noted before the next one is told. -/
  noted : ∀ computer call, x.call.message? = some (computer, call) →
    c.notesAt x = c.registered.flatMap fun i => (if c.listens i call then [.told i computer call] else []) ++
      if (c.withFails x.fails).failsOn i call then [.failed computer] else []
  /-- Observers of the library take it in once if they are registered, and else are as before. -/
  heard : ∀ computer call, x.call.message? = some (computer, call) → ∀ i,
    (c.meet x).observers[i]? = (c.observers[i]?.map (·.withFails (x.fails i))).map fun o =>
      if i ∈ c.registered then o.hear computer call else o
  quiet : x.call.message? = none → (c.notesAt x).filterMap Note.telling? = []

theorem addObserver_changes (c : Context) (i : Nat) :
    (c.addObserver i).2 = true ↔ ∃ j, ¬(j ∈ (c.addObserver i).1.registered ↔ j ∈ c.registered) := by
  rw [addObserver_registered]
  by_cases hi : i ∈ c.registered
  · simp [addObserver, hi]
  · simp only [addObserver, List.contains_iff_mem, hi, if_false, true_iff]
    exact ⟨i, by simp [hi]⟩

theorem removeObserver_changes (c : Context) (i : Nat) :
    (c.removeObserver i).2 = true ↔ ∃ j, ¬(j ∈ (c.removeObserver i).1.registered ↔ j ∈ c.registered) := by
  have hlength : (c.removeObserver i).2 = true ↔ (c.registered.filter (· != i)).length ≠ c.registered.length := by
    simp [removeObserver]
  rw [hlength, removeObserver_registered, Ne, List.length_filter_eq_length_iff]
  constructor
  · intro hnot
    obtain ⟨j, hj, hji⟩ : ∃ j ∈ c.registered, ¬(j != i) = true := by simpa using hnot
    exact ⟨j, by simp [hj, hji]⟩
  · rintro ⟨j, hj⟩ hall
    exact hj ⟨fun h => (List.mem_filter.1 h).1, fun h => List.mem_filter.2 ⟨h, hall j h⟩⟩

theorem Coherent.delivers (h : c.Coherent) (x : Occasion) : c.Delivers x := by
  have hf := h.withFails x.fails
  have hlistens := fun call i => c.withFails_listens x.fails i call
  constructor
  case registered => exact meet_registered c x
  case answered =>
    rintro i (hx | hx)
    · rw [Context.meet, hx]
      exact ⟨_, rfl, addObserver_changes ..⟩
    · rw [Context.meet, hx]
      exact ⟨_, rfl, removeObserver_changes ..⟩
  case told =>
    intro computer call hx
    rw [notesAt, (hf.passes_on hx).2, hf.tellings]
    simp only [hlistens]
    rfl
  case noted =>
    intro computer call hx
    rw [notesAt, (hf.passes_on hx).2, hf.broadcast_notes]
    simp only [hlistens]
    rfl
  case heard =>
    intro computer call hx i
    rw [Context.meet, (hf.passes_on hx).1, hf.broadcast_getElem?, withFails_getElem?]
    show (if i ∈ c.registered then _ else _) = _
    cases c.observers[i]? with
    | none => simp
    | some o => by_cases hi : i ∈ c.registered <;> simp [hi]
  case quiet => exact telling?_of_quiet _

theorem ofRegistry_registered {r : Registry} (h : ofRegistry r = .ok c) : c.registered = [] := by
  obtain ⟨standard, rfl⟩ := ofRegistry_eq h
  rfl

/-- Whatever is done with a context and its observers, and whoever of the host's observers fails when: each message
reaches everybody who is registered then, once and in the order of the present registrations, and nobody else. -/
theorem run_delivers {r : Registry} {new : Context} (hnew : ofRegistry r = .ok new) (observers : List Observer)
    (xs : List Occasion) :
    let c : Context := { new with observers }
    c.Rostered xs ∧ (∀ x, (c.meetAll xs).Delivers x) ∧
      ∀ i, (c.transcript xs).filterMap (Note.toldTo? i) = (c.witnessed i xs).filter fun m => c.listens i m.2 := by
  intro c
  have hc := coherent_of_ofRegistry hnew
  have hstart : c.Coherent := ⟨hc.distinct, hc.marked⟩
  have hnone : c.registered = [] := (ofRegistry_registered hnew :)
  have hnow := hstart.meetAll xs
  refine ⟨⟨hnow.distinct, ?_, ordered_meetAll hnone xs⟩, hnow.delivers, fun i => hstart.received i xs⟩
  rw [hnow.marked, observerCount, List.length_pos_iff]
  simp

/-- An observer of the host, a keeper of records, and an observer of the host that does not care for computers that are
gone. -/
def audience : Context := { watched with observers := [.host ⟨false, true⟩, .records {}, .host ⟨false, false⟩] }

/-- They are registered in another order than they stand in, the first one is taken off for a while, and there is always
somebody who fails. -/
def season : List Occasion :=
  let task : Observation := .event watched.standard.computerTasks 7
  [⟨.add 2, fun _ => false⟩, ⟨.add 0, fun _ => false⟩, ⟨.start 1, fun _ => false⟩, ⟨.observe ⟨1⟩ task, (· = 2)⟩,
    ⟨.remove 0, fun _ => true⟩, ⟨.unload ⟨1⟩, fun _ => true⟩, ⟨.add 0, fun _ => true⟩, ⟨.observe ⟨2⟩ task, (· = 0)⟩]

/-- The first one does not hear that the computer is gone, and neither does the last. -/
theorem delivers_season :
    (audience.meetAll season).registered = [2, 1, 0] ∧
      ((audience.transcript season).filterMap (Note.toldTo? 0)).map (·.1) = [⟨1⟩, ⟨2⟩] ∧
      ((audience.transcript season).filterMap (Note.toldTo? 1)).map (·.1) = [⟨1⟩, ⟨1⟩, ⟨2⟩] ∧
      (audience.transcript season).count (.failed ⟨1⟩) = 1 ∧
      audience.Rostered season ∧ (∀ x, (audience.meetAll season).Delivers x) ∧
      ∀ i, (audience.transcript season).filterMap (Note.toldTo? i) =
        (audience.witnessed i season).filter fun m => audience.listens i m.2 :=
  ⟨by decide +kernel, by decide +kernel, by decide +kernel, by decide +kernel,
    run_delivers ofRegistry_standard audience.observers season⟩

end Context

end FairShare.Metrics
