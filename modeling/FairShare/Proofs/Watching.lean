import FairShare.Proofs.Checking

/-!
# The watchdog between its checks

When every check of the watchdog is one step, nothing else happens in the middle of one. `Watched` says what then holds:
a watchdog is on its way from one check to the next, or in the middle of a check of a worker that it found with a slice
and can take it from.
-/

namespace FairShare.Scheduler

variable {n : Nat}

open Instr

namespace Instr

/-- Whether an instruction goes on with the rounds of a watchdog. -/
@[simp] def watches : Instr n → Bool
  | .watch | .beginWatch => true
  | _ => false

/-- Whether a watchdog carries an instruction out outside of its checks, or begins a check with it. -/
def isRound : Instr n → Bool
  | .startWatchdog | .watch | .beginWatch | .watching _ | .inspect | .checkWorker _ => true
  | _ => false

/-- Whether a thread is in the middle of a check. -/
def checking (code : List (Instr n)) : Bool := code.any watches && !code.head?.all isRound

variable {i : Instr n} {rest next : List (Instr n)}

theorem checking_of_round (h : ∀ i ∈ rest, i.isRound = true) : checking rest = false := by
  cases rest with
  | nil => rfl
  | cons i rest =>
    have hi : i.isRound = true := h i (List.mem_cons_self ..)
    simp [checking, hi]

theorem isRound_of_round (h : Round rest) : ∀ i ∈ rest, i.isRound = true := by
  obtain ⟨ws, rfl⟩ := h
  intro i hi
  rcases List.mem_append.1 hi with hi | hi
  · obtain ⟨w, -, rfl⟩ := List.mem_map.1 hi
    rfl
  · rw [List.mem_singleton.1 hi]
    rfl

theorem watches_of_round (h : Round rest) : rest.any watches = true := by
  obtain ⟨ws, rfl⟩ := h
  simp

/-- Only a watchdog comes to go on with its rounds. -/
theorem Leads.watches (hl : i.Leads next) (h : next.any watches = true) : i.watches = true := by
  obtain ⟨x, hx, hw⟩ := List.any_eq_true.1 h
  cases hl.yields hx <;> first | rfl | cases hw

/-- A watchdog stays outside of its checks unless it finds a worker with a slice. -/
theorem Leads.isRound (hl : i.Leads next) (hi : i.isRound = true) :
    (∀ x ∈ next, x.isRound = true) ∨ ∃ w e, i = .checkWorker w ∧ next = [.call (.refresh e), .measure w e] := by
  by_cases hc : ∃ w e, i = .checkWorker w ∧ next = [.call (.refresh e), .measure w e]
  · exact Or.inr hc
  · refine Or.inl fun x hx => ?_
    cases hl.yields hx with
    | refresh w e => exact absurd ⟨w, e, rfl, by rcases hl with rfl | ⟨e', rfl⟩ <;> simp_all⟩ hc
    | measure w e => exact absurd ⟨w, e, rfl, by rcases hl with rfl | ⟨e', rfl⟩ <;> simp_all⟩ hc
    | _ => first | rfl | cases hi

end Instr

theorem Midway.not_round {b c : Books n} {g k : Gear n} {w : WorkerId} {e : Fin n} {i : Instr n} {front : List (Instr n)}
    (hm : Midway b g w e (i :: front) c k) : i.isRound = false := by
  obtain ⟨j, rest, hj, hpos, -⟩ := hm.head
  obtain ⟨rfl, rfl⟩ := List.cons.inj hj
  cases i <;> first | rfl | cases hpos

theorem Midway.checking {b c : Books n} {g k : Gear n} {w : WorkerId} {e : Fin n} {front rest : List (Instr n)}
    (hm : Midway b g w e front c k) (hr : Round rest) : checking (front ++ rest) = true := by
  obtain ⟨i, front, rfl, -⟩ := hm.head
  simp [Instr.checking, watches_of_round hr, hm.not_round]

namespace Books

variable {b b' : Books n} {g g' : Gear n}

/-- Every check of the watchdog is one step: nothing else happens in the middle of one. -/
def Whole (b : Books n) (a : Action n) : Prop :=
  ∀ (t : ThreadId) (code : List (Instr n)), b.codes[t]? = some code → checking code = true → a = .step t

/-- What a watchdog still has to do. -/
def Watchful (b : Books n) (g : Gear n) (code : List (Instr n)) : Prop :=
  (∀ i ∈ code, i.isRound = true) ∨
    ∃ b₀ g₀ w e front rest, code = front ++ rest ∧ Round rest ∧ Checkable b₀ g₀ w e ∧ Midway b₀ g₀ w e front b g

/-- The workers and the watchdog when every check is one step. -/
structure Watched (b : Books n) (g : Gear n) : Prop where
  guarded : b.Guarded
  /-- Whoever retires a worker has something to do after that. -/
  staying : ∀ code ∈ b.codes, ∀ w, code.getLast? ≠ some (.decideRespawn w)
  /-- A worker whose thread has not begun has no slice. -/
  begun : ∀ w : WorkerId, g.started[w]? = some false → [.startWorker w, .nextSlice w] ∈ b.codes
  watchful : ∀ code ∈ b.codes, code.any watches = true → b.Watchful g code

/-- The slice that is taken over is there. -/
theorem Watched.inTime (h : b.Watched g) (hf : b.Fitted) (a : Action n) : b.InTime a := by
  rintro t w rest rfl ht hnext
  have hmem := List.mem_of_getElem? ht
  rcases takes_of_staying h.staying hf (show [] ++ .takeAbandoned w :: rest ∈ b.codes from hmem) with rfl | ⟨round, hround, rfl⟩
  · simp at hnext
  · have hwatch : (Instr.takeAbandoned w :: .decideRespawn w :: round).any watches = true := by
      simp [watches_of_round hround]
    rcases h.watchful _ hmem hwatch with hall | ⟨b₀, g₀, w', e, front, rest', hcode, hround', hc, hm⟩
    · cases hall (.takeAbandoned w) (List.mem_cons_self ..)
    · obtain ⟨i, front, rfl, -⟩ := hm.head
      obtain ⟨rfl, -⟩ := List.cons.inj hcode
      generalize hfront : Instr.takeAbandoned w :: front = code at hm
      generalize hb : b = c at hm
      cases hm <;> cases hfront
      subst hb
      exact ⟨e, hc.current⟩

/-- A worker with a slice is not retired, outside of the checks. -/
theorem Watched.live (h : b.Watched g) (ho : b.Orderly) (hf : b.Fitted)
    (hnone : ∀ code ∈ b.codes, checking code = false) {w : WorkerId} {e : Fin n} (hc : b.current[w]? = some (some e)) :
    b.live[w]? = some true := by
  refine (h.guarded.held w e hc).resolve_right fun hpos => ?_
  obtain ⟨i, hi, ha⟩ := List.countP_pos_iff.1 hpos
  obtain ⟨code, hcode, hi⟩ := List.mem_flatten.1 hi
  obtain rfl := eq_of_abandons ha
  obtain ⟨front, rest, rfl⟩ := List.append_of_mem hi
  rcases takes_of_staying h.staying hf hcode with rfl | ⟨round, hround, rfl⟩
  · -- The thread of the worker has still to close the slice, so it cannot be about to retire it.
    obtain ⟨t, ht⟩ := List.getElem?_of_mem hcode
    obtain ⟨t', code', a, ht', hclose, hnext⟩ := ho.closer hc
    obtain rfl := ho.thread_unique ht ht' (by simp) hnext
    rw [ht] at ht'
    obtain rfl := Option.some.inj ht'
    have hclose : .closeSlice w e a ∈ front := by simpa using hclose
    obtain ⟨before, after, rfl⟩ := List.append_of_mem hclose
    have hfits := hf _ hcode
    rw [List.append_assoc] at hfits
    have hafter : after ++ [.takeAbandoned w, .decideRespawn w, .nextSlice w] = [.nextSlice w] := hfits.of_append.1
    simpa using congrArg List.length hafter
  · have hwatch : (front ++ Instr.takeAbandoned w :: .decideRespawn w :: round).any watches = true := by
      simp [watches_of_round hround]
    rcases h.watchful _ hcode hwatch with hall | ⟨b₀, g₀, w', e', front', rest', hcode', hround', -, hm⟩
    · cases hall (.takeAbandoned w) (by simp)
    · have := hnone _ hcode
      rw [hcode', hm.checking hround'] at this
      cases this

/-- A worker that is found with a slice can be checked, outside of the checks. -/
theorem Watched.checkable (h : b.Watched g) (ho : b.Orderly) (hf : b.Fitted) (hs : Seated b.live b.leaving g)
    (hlen : g.started.length = b.current.length) (hnone : ∀ code ∈ b.codes, checking code = false) {w : WorkerId}
    {e : Fin n} (hc : b.current[w]? = some (some e)) : Checkable b g w e := by
  have hlive := h.live ho hf hnone hc
  obtain ⟨slot, hslot⟩ := hs.holds w (Or.inl hlive)
  refine ⟨hc, hlive, ?_, slot, hs.seated slot w hslot, hslot⟩
  have hlt : w < g.started.length := hlen ▸ (List.getElem?_eq_some_iff.1 hc).1
  cases hup : g.started[w] with
  | true => rw [List.getElem?_eq_getElem hlt, hup]
  | false =>
    -- The thread of the worker has not begun, so it has no slice to close.
    have hbegun := h.begun w (by rw [List.getElem?_eq_getElem hlt, hup])
    obtain ⟨t, ht⟩ := List.getElem?_of_mem hbegun
    obtain ⟨t', code, a, ht', hclose, hnext⟩ := ho.closer hc
    obtain rfl := ho.thread_unique ht ht' (by simp) hnext
    rw [ht] at ht'
    obtain rfl := Option.some.inj ht'
    simp at hclose

/-- A worker that is hired has its thread to begin with, one that was not there before. -/
theorem Hires.threads (h : b.Hires b') {w : Nat} (hw : b.current.length ≤ w) (hw' : w < b'.current.length) :
    [.startWorker w, .nextSlice w] ∈ b'.codes.drop b.codes.length := by
  induction h with
  | refl => omega
  | @worker b b' h ih =>
    by_cases hne : w = b.current.length
    · subst hne
      have hnew : b.hireWorker.codes[b.codes.length]? =
          some [.startWorker b.current.length, .nextSlice b.current.length] := by simp [hireWorker]
      exact List.mem_of_getElem? (i := 0) (by rw [List.getElem?_drop]; exact h.codes hnew)
    · refine List.drop_subset_drop_left _ ?_ (ih ?_ hw')
      · simp [hireWorker]
      · simp only [hireWorker, List.length_append, List.length_singleton]
        omega
  | watchdog h ih => exact List.drop_subset_drop_left _ (by simp [hireWatchdog]) (ih hw hw')

end Books

namespace Instr

variable {b b' : Books n} {g g' : Gear n} {i : Instr n} {next : List (Instr n)}

/-- A worker whose thread has not begun was such a worker before, or has been hired. -/
theorem Outcome.begun (ho : Outcome b g i b' g' next) (hlen : g.started.length = b.current.length) {w : Nat}
    (h : g'.started[w]? = some false) :
    g.started[w]? = some false ∧ i ≠ .startWorker w ∨
      b.current.length ≤ w ∧ [.startWorker w, .nextSlice w] ∈ b'.codes := by
  have hhired : ∀ {current : List (Option (Fin n))} {codes : List (List (Instr n))} {i : Instr n},
      i ≠ .startWorker w → b.Hires { b with current, live := b.live ++ [true], codes } →
      (g.started ++ [false])[w]? = some false →
      g.started[w]? = some false ∧ i ≠ .startWorker w ∨
        b.current.length ≤ w ∧ [.startWorker w, .nextSlice w] ∈ codes := by
    intro current codes i hi hh hup
    by_cases hlt : w < g.started.length
    · exact Or.inl ⟨by rwa [List.getElem?_append_left hlt] at hup, hi⟩
    · obtain ⟨m, hcur, hlive⟩ := hh.grow
      have hcur : current = b.current ++ List.replicate m none := hcur
      have hm : m = 1 := by
        have := congrArg List.length hlive
        simpa [eq_comm] using this
      have hw := (List.getElem?_eq_some_iff.1 hup).1
      simp only [List.length_append, List.length_singleton] at hw
      refine Or.inr ⟨by omega, List.mem_of_mem_drop (hh.threads (by omega) ?_)⟩
      show w < current.length
      simp only [hcur, hm, List.length_append, List.length_replicate]
      omega
  cases ho
  case startWorker w' =>
    by_cases hne : w' = w
    · subst hne
      have hlt : w' < g.started.length := by simpa using (List.getElem?_eq_some_iff.1 h).1
      rw [List.getElem?_set_self hlt] at h
      cases h
    · rw [List.getElem?_set_ne hne] at h
      exact Or.inl ⟨h, by simpa using hne⟩
  case hire hh hr hs => exact hhired (by simp) hh h
  case replace hh hs hs' => exact hhired (by simp) hh h
  case take w' e idle hi h' => exact Or.inl ⟨h, by rcases hi with ⟨rfl, -⟩ | ⟨rfl, -⟩ <;> simp⟩
  case close w' idle hp hi h' => exact Or.inl ⟨h, by rcases hi with ⟨rfl, -⟩ | ⟨rfl, -⟩ <;> simp⟩
  case await w' idle hp hi h' => exact Or.inl ⟨h, by rcases hi with ⟨rfl, -⟩ | ⟨rfl, -⟩ <;> simp⟩
  all_goals exact Or.inl ⟨h, by simp⟩

end Instr

namespace Books

variable {b b' : Books n} {g g' : Gear n} {t : ThreadId} {i : Instr n} {rest next : List (Instr n)}

/-- What a watchdog has to do after its next instruction. -/
theorem Watched.watchful_step (h : b.Watched g) (ho : b.Orderly) (hf : b.Fitted) (hs : Seated b.live b.leaving g)
    (hlen : g.started.length = b.current.length) (hw : b.Whole (.step t)) (ht : b.codes[t]? = some (i :: rest))
    (he : i.Effect { b with codes := b.codes.set t rest } b' next) (hl : i.Leads next)
    (hd : i.Drive { b with codes := b.codes.set t rest } b' g g' next) (codes : List (List (Instr n)))
    (hwatch : (next ++ rest).any watches = true) : Watchful { b' with codes } g' (next ++ rest) := by
  have hmem := List.mem_of_getElem? ht
  have hold : (i :: rest).any watches = true := by
    rw [List.any_append, Bool.or_eq_true] at hwatch
    rw [List.any_cons, Bool.or_eq_true]
    exact hwatch.imp_left hl.watches
  rcases h.watchful _ hmem hold with hall | ⟨b₀, g₀, w, e, front, rest', hcode, hround, hc, hm⟩
  · obtain ⟨hi, hrest⟩ := List.forall_mem_cons.1 hall
    rcases hl.isRound hi with hn | ⟨w, e, rfl, rfl⟩
    · exact Or.inl fun x hx => (List.mem_append.1 hx).elim (hn x) (hrest x)
    · have hround : Round rest := (hf _ hmem).1
      obtain ⟨rfl, ⟨e', hcur, hn⟩ | ⟨-, hn⟩⟩ := hd
      · obtain rfl : e = e' := by simpa using hn
        cases he
        have hnone : ∀ code ∈ b.codes, checking code = false := by
          intro code hcode
          obtain ⟨t', ht'⟩ := List.getElem?_of_mem hcode
          by_contra hne
          have hstep := hw t' code ht' (by simpa using hne)
          obtain rfl : t = t' := by simpa using hstep
          rw [ht] at ht'
          obtain rfl := Option.some.inj ht'
          simp [checking, isRound] at hne
        exact Or.inr ⟨b, g', w, e, _, rest, rfl, hround, h.checkable ho hf hs hlen hnone hcur, .refresh codes⟩
      · simp at hn
  · obtain ⟨j, front, rfl, -⟩ := hm.head
    obtain ⟨rfl, rfl⟩ := List.cons.inj hcode
    rcases hm.step hc he hl hd (l := codes) with ⟨hm, -⟩ | ⟨hn, -⟩
    · exact Or.inr ⟨b₀, g₀, w, e, _, rest', (List.append_assoc ..).symm, hround, hc, hm⟩
    · have hrest : next ++ (front ++ rest') = rest' := by rw [← List.append_assoc, hn, List.nil_append]
      refine Or.inl fun x hx => isRound_of_round hround x ?_
      rw [← hrest]
      exact hx

/-- A watchdog that does not take the step is outside of its checks. -/
theorem Watched.isRound (h : b.Watched g) {a : Action n} (hw : b.Whole a) {t' : ThreadId} {code : List (Instr n)}
    (ht : b.codes[t']? = some code) (hne : a ≠ .step t') (hwatch : code.any watches = true) :
    ∀ i ∈ code, i.isRound = true := by
  refine (h.watchful code (List.mem_of_getElem? ht) hwatch).resolve_right ?_
  rintro ⟨b₀, g₀, w, e, front, rest, rfl, hround, -, hm⟩
  exact hne (hw t' _ ht (hm.checking hround))

theorem Begins.isRound {code : List (Instr n)} (h : Begins code) (hwatch : code.any watches = true) :
    ∀ i ∈ code, i.isRound = true := by
  rcases h with ⟨w, rfl⟩ | rfl
  · simp at hwatch
  · simp [Instr.isRound]

variable {a : Action n}

/-- A worker whose thread has not begun has all of it before it. -/
theorem begun_goes (h : ∀ w : WorkerId, g.started[w]? = some false → [.startWorker w, .nextSlice w] ∈ b.codes)
    (ho : b.Orderly) (hlen : g.started.length = b.current.length) (hg : Goes b g a b' g') {w : WorkerId}
    (hup : g'.started[w]? = some false) : [.startWorker w, .nextSlice w] ∈ b'.codes := by
  cases hg with
  | rest => exact h w hup
  | advance => exact h w hup
  | arrive c => exact List.mem_append_left _ (h w hup)
  | perform t w' e rest next a ht ha =>
    obtain ⟨t', ht'⟩ := List.getElem?_of_mem (h w hup)
    have hne : t ≠ t' := by
      rintro rfl
      rw [ht] at ht'
      cases ht'
    exact List.mem_of_getElem? (i := t') (by rw [List.getElem?_set_ne hne]; exact ht')
  | step t i rest next b' g' ht hwork he hl hd =>
    rcases (outcome hwork he hl hd).begun hlen hup with ⟨hold, hi⟩ | ⟨hfresh, hnew⟩
    · obtain ⟨t', ht'⟩ := List.getElem?_of_mem (h w hold)
      have hne : t' ≠ t := by
        rintro rfl
        rw [ht] at ht'
        exact hi (List.cons.inj (Option.some.inj ht')).1
      exact List.mem_of_getElem? (codes_other ht he hne ht')
    · obtain ⟨t', ht'⟩ := List.getElem?_of_mem hnew
      have hne : t ≠ t' := by
        rintro rfl
        obtain ⟨extra, hcodes, -⟩ := begins_of_effect he
        have hlt := (List.getElem?_eq_some_iff.1 ht).1
        rw [hcodes, List.getElem?_append_left (by simpa using hlt), List.getElem?_set_self hlt] at ht'
        obtain rfl := Option.some.inj ht'
        -- The thread that takes the step would be that of the worker that is hired.
        have hpos : 0 < b.todo.countP (nexts w) :=
          List.countP_pos_iff.2 ⟨.nextSlice w, List.mem_flatten.2 ⟨_, List.mem_of_getElem? ht, by simp⟩, by simp⟩
        have hz := ho.fresh w hfresh
        omega
      exact List.mem_of_getElem? (i := t') (by rw [List.getElem?_set_ne hne]; exact ht')
  | tear t e o rest ht hfail =>
    obtain ⟨t', ht'⟩ := List.getElem?_of_mem (h w hup)
    have hne : t ≠ t' := by
      rintro rfl
      rw [ht] at ht'
      cases ht'
    exact List.mem_of_getElem? (i := t') (by rw [List.getElem?_set_ne hne]; exact ht')

theorem Watched.watchful_goes (h : b.Watched g) (ho : b.Orderly) (hf : b.Fitted) (hs : Seated b.live b.leaving g)
    (hlen : g.started.length = b.current.length) (hw : b.Whole a) (hg : Goes b g a b' g') {code : List (Instr n)}
    (hc : code ∈ b'.codes) (hwatch : code.any watches = true) : b'.Watchful g' code := by
  cases hg with
  | rest => exact h.watchful code hc hwatch
  | advance =>
    obtain ⟨t', ht'⟩ := List.getElem?_of_mem hc
    exact Or.inl (h.isRound hw ht' (by simp) hwatch)
  | arrive c =>
    rcases List.mem_append.1 hc with hc | hc
    · obtain ⟨t', ht'⟩ := List.getElem?_of_mem hc
      exact Or.inl (h.isRound hw ht' (by simp) hwatch)
    · rw [List.mem_singleton.1 hc] at hwatch
      simp at hwatch
  | perform t w e rest next a ht ha =>
    rcases List.mem_or_eq_of_mem_set hc with hc | rfl
    · obtain ⟨t', ht'⟩ := List.getElem?_of_mem hc
      exact Or.inl (h.isRound hw ht' (by simp) hwatch)
    · have hrest : rest.any watches = true := by
        rw [List.any_append, Bool.or_eq_true] at hwatch
        exact hwatch.resolve_left fun hn => by cases ha.leads.watches hn
      have hall := h.isRound hw ht (by simp) (by simp [hrest])
      cases hall _ (List.mem_cons_self ..)
  | step t i rest next b' g' ht hwork he hl hd =>
    obtain ⟨t', ht'⟩ := List.getElem?_of_mem hc
    rcases codes_after ht he ht' with ⟨rfl, rfl⟩ | ⟨hne, hold⟩ | hbegins
    · exact h.watchful_step ho hf hs hlen hw ht he hl hd _ hwatch
    · exact Or.inl (h.isRound hw hold (by simpa using Ne.symm hne) hwatch)
    · exact Or.inl (hbegins.isRound hwatch)
  | tear t e o rest ht hfail =>
    obtain ⟨t', ht'⟩ := List.getElem?_of_mem hc
    by_cases hne : t = t'
    · subst hne
      rw [List.getElem?_set_self (List.getElem?_eq_some_iff.1 ht).1] at ht'
      rw [← Option.some.inj ht'] at hwatch
      simp at hwatch
    · rw [List.getElem?_set_ne hne] at ht'
      exact Or.inl (h.isRound hw ht' (by simpa using hne) hwatch)

/-- The watchdog is watched after every action that leaves its checks whole. -/
theorem Watched.goes (h : b.Watched g) (ho : b.Orderly) (hf : b.Fitted) (hs : Seated b.live b.leaving g)
    (hlen : g.started.length = b.current.length) (hw : b.Whole a) (hg : Goes b g a b' g') : b'.Watched g' where
  guarded := h.guarded.goes hf ho hg (h.inTime hf a)
  staying := Staying.goes h.staying h.guarded.dismissed hg
  begun _ := begun_goes h.begun ho hlen hg
  watchful _ := h.watchful_goes ho hf hs hlen hw hg

end Books

namespace Pool

/-- Whether an action is a step of a thread. -/
def stepOf (t : ThreadId) : Action n → Bool
  | .step t' => t' = t
  | _ => false

/-- Whether nothing happens in the middle of a check but the next step of it. -/
def whole (s : Pool n) (a : Action n) : Bool :=
  (List.range s.threads.length).all fun t => !checking (s.code t) || stepOf t a

theorem whole_iff {s : Pool n} {a : Action n} :
    s.whole a = true ↔ ∀ t, checking (s.code t) = true → a = .step t := by
  have hstep : ∀ t, stepOf t a = true ↔ a = .step t := by
    intro t
    cases a <;> simp [stepOf]
  simp only [whole, List.all_eq_true, List.mem_range, Bool.or_eq_true, Bool.not_eq_true', hstep]
  refine ⟨fun h t ht => ?_, fun h t _ => ?_⟩
  · refine (h t ?_).resolve_left (by simp [ht])
    by_cases hlt : t < s.threads.length
    · exact hlt
    · have hz : s.code t = [] := by unfold code; rw [List.getElem?_eq_none (Nat.le_of_not_lt hlt)]
      rw [hz] at ht
      cases ht
  · cases ht : checking (s.code t) with
    | false => exact Or.inl rfl
    | true => exact Or.inr (h t ht)

theorem length_started (s : Pool n) : s.gear.started.length = s.books.current.length := by simp [gear, books]

/-- A thread carries out a whole check, and nobody else does anything meanwhile. -/
def Checks (s : Pool n) (t : ThreadId) (s' : Pool n) : Prop :=
  ∃ k, s' = s.run (List.replicate (k + 1) (.step t)) ∧ s.Along (fun s a => s.whole a) (List.replicate (k + 1) (.step t)) ∧
    (∀ j < k, checking ((s.run (List.replicate (j + 1) (.step t))).code t) = true) ∧ checking (s'.code t) = false

/-- Nobody but a thread is in the middle of a check. -/
def Alone (s : Pool n) (t : ThreadId) : Prop := ∀ t', t' ≠ t → checking (s.code t') = false

theorem Alone.whole {s : Pool n} {t : ThreadId} (h : s.Alone t) : s.whole (.step t) = true := by
  refine whole_iff.2 fun t' ht' => ?_
  by_cases hne : t' = t
  · rw [hne]
  · rw [h t' hne] at ht'
    cases ht'

/-- A check of which one step is carried out is carried out with the others. -/
theorem Checks.cons {s s' : Pool n} {t : ThreadId} (h : (s.step t).Checks t s') (ha : s.Alone t)
    (hc : checking ((s.step t).code t) = true) : s.Checks t s' := by
  obtain ⟨k, hs, halong, hmid, hend⟩ := h
  refine ⟨k + 1, hs, ⟨ha.whole, halong⟩, fun j hj => ?_, hend⟩
  cases j with
  | zero => exact hc
  | succ j => exact hmid j (by omega)

theorem Checks.one {s : Pool n} {t : ThreadId} (ha : s.Alone t) (hc : checking ((s.step t).code t) = false) :
    s.Checks t (s.step t) :=
  ⟨0, rfl, ⟨ha.whole, trivial⟩, fun j hj => absurd hj (Nat.not_lt_zero j), hc⟩

theorem Alone.step {s : Pool n} {t : ThreadId} (h : s.Alone t) : (s.step t).Alone t := by
  intro t' hne
  have hg : Goes s.books s.gear (.step t) (s.step t).books (s.step t).gear := act_goes s (.step t)
  have hold : ∀ code, s.books.codes[t']? = some code → checking code = false := by
    intro code ht'
    have := h t' hne
    rwa [code_eq, ht'] at this
  rw [code_eq]
  cases ht' : (s.step t).books.codes[t']? with
  | none => rfl
  | some code =>
    show checking code = false
    generalize (s.step t).books = b' at hg ht'
    generalize (s.step t).gear = g' at hg
    cases hg with
    | rest => exact hold code ht'
    | step _ i rest next b' g' ht hwork he hl hd =>
      rcases Books.codes_after ht he ht' with ⟨rfl, -⟩ | ⟨-, ht'⟩ | ⟨w, rfl⟩ | rfl
      · exact absurd rfl hne
      · exact hold code ht'
      · rfl
      · rfl
    | tear _ e o rest ht hfail =>
      rw [List.getElem?_set_ne (Ne.symm hne)] at ht'
      exact hold code ht'

/-- What a thread has to do after a step. -/
theorem code_step {s : Pool n} {t : ThreadId} {i : Instr n} {rest next : List (Instr n)} {b' : Books n}
    (ht : s.books.codes[t]? = some (i :: rest)) (he : i.Effect { s.books with codes := s.books.codes.set t rest } b' next)
    (hb : (s.step t).books = { b' with codes := b'.codes.set t (next ++ rest) }) : (s.step t).code t = next ++ rest := by
  rw [code_eq, hb]
  show ((b'.codes.set t (next ++ rest))[t]?).getD [] = _
  rw [Books.codes_self ht he]
  rfl

/-- A check that has begun comes to its end: an instruction leads to those that are closer to it. -/
theorem check_ends {b : Books n} {g : Gear n} {w : WorkerId} {e : Fin n} {t : ThreadId} {rest : List (Instr n)}
    (hc : Checkable b g w e) (hr : Round rest) (bound : Nat) {front : List (Instr n)} {s : Pool n}
    (hbound : height front < bound) (hm : Midway b g w e front s.books s.gear) (hcode : s.code t = front ++ rest)
    (ha : s.Alone t) :
    ∃ s', s.Checks t s' ∧ Ladder b g w e s'.books s'.gear ∧
      (s'.code t = rest ∨ (g.host e).sink = .host true ∧ 3 * g.rung ≤ (g.overrun e).nanos ∧ s'.code t = []) := by
  induction bound generalizing front s with
  | zero => omega
  | succ bound ih =>
    obtain ⟨i, front, rfl, -, hwait⟩ := hm.head
    have ht := codes_of_code (show s.code t = i :: (front ++ rest) from hcode)
    rcases step_goes s t hcode (hwait s t) with ⟨next, b', g', he, hl, hd, hb, hg⟩ | ⟨e', o, rfl, hf, hb, hg⟩
    · have hcode' : (s.step t).code t = next ++ (front ++ rest) := code_step ht he hb
      have hstep := hm.step hc he hl hd (l := b'.codes.set t (next ++ (front ++ rest)))
      rw [← hg] at hstep
      have hb : (s.step t).books = { b' with codes := b'.codes.set t (next ++ (front ++ rest)) } := hb
      rw [← hb] at hstep
      rcases hstep with ⟨hm', hlt⟩ | ⟨hn, hladder⟩
      · have hcode'' := hcode'.trans (List.append_assoc ..).symm
        obtain ⟨s', hs', hend⟩ := ih (by omega) hm' hcode'' ha.step
        exact ⟨s', hs'.cons ha (by rw [hcode'']; exact hm'.checking hr), hend⟩
      · have hrest : (s.step t).code t = rest := by rw [hcode', ← List.append_assoc, hn, List.nil_append]
        refine ⟨s.step t, .one ha ?_, hladder, Or.inl hrest⟩
        rw [hrest]
        exact checking_of_round (isRound_of_round hr)
    · obtain ⟨hsink, hover, hladder⟩ := hm.tear hf (l := s.books.codes.set t [])
      have hnil : (s.step t).code t = [] := by
        rw [code_eq, hb]
        show ((s.books.codes.set t [])[t]?).getD [] = []
        rw [List.getElem?_set_self (List.getElem?_eq_some_iff.1 ht).1]
        rfl
      refine ⟨s.step t, .one ha ?_, ?_, Or.inr ⟨hsink, hover, hnil⟩⟩
      · rw [hnil]
        rfl
      · rw [hb, hg]
        exact hladder

/-- What a check of a worker comes to, from a state outside of the checks. -/
theorem check {s : Pool n} (hm : s.Manning) (hw : s.books.Watched s.gear) (ho : s.books.Orderly) {t : ThreadId}
    {w : WorkerId} {rest : List (Instr n)} (hcode : s.code t = .checkWorker w :: rest) (ha : s.Alone t) :
    (∃ e s', s.current? w = some e ∧ Checkable s.books s.gear w e ∧ s.Checks t s' ∧
      Ladder s.books s.gear w e s'.books s'.gear ∧
      (s'.code t = rest ∨
        (s.gear.host e).sink = .host true ∧ 3 * s.gear.rung ≤ (s.gear.overrun e).nanos ∧ s'.code t = [])) ∨
    s.current? w = none ∧ s.Checks t (s.step t) ∧
      (s.step t).books = { s.books with codes := s.books.codes.set t rest } ∧ (s.step t).gear = s.gear := by
  have ht := codes_of_code hcode
  have hround : Round rest := (hm.fitted _ (List.mem_of_getElem? ht)).1
  have hnone : ∀ code ∈ s.books.codes, checking code = false := by
    intro code hc
    obtain ⟨t', ht'⟩ := List.getElem?_of_mem hc
    have hcode' : s.code t' = code := by rw [code_eq, ht']; rfl
    by_cases hne : t' = t
    · subst hne
      rw [← hcode', hcode]
      simp [checking, isRound]
    · rw [← hcode']
      exact ha t' hne
  rcases step_goes s t hcode rfl with ⟨next, b', g', he, hl, hd, hb, hg⟩ | ⟨e', o, hi, -⟩
  · have hcode' : (s.step t).code t = next ++ rest := code_step ht he hb
    cases he
    obtain ⟨rfl, ⟨e, hcur, rfl⟩ | ⟨hcur, rfl⟩⟩ := hd
    · have hc := hw.checkable ho hm.fitted hm.seated s.length_started hnone hcur
      have hmid : Midway s.books s.gear w e [.call (.refresh e), .measure w e] (s.step t).books (s.step t).gear := by
        rw [hb, hg]
        exact .refresh _
      obtain ⟨s', hs', hend⟩ := check_ends hc hround _ (Nat.lt_succ_self _) hmid hcode' ha.step
      exact Or.inl ⟨e, s', (current_eq s w e).1 hcur, hc, hs'.cons ha (by rw [hcode']; exact hmid.checking hround), hend⟩
    · refine Or.inr ⟨?_, .one ha ?_, ?_, hg⟩
      · exact Option.eq_none_iff_forall_ne_some.2 fun e he => hcur e ((current_eq s w e).2 he)
      · rw [hcode']
        exact checking_of_round (isRound_of_round hround)
      · rw [hb]
        simp
  · cases hi

end Pool

end FairShare.Scheduler
