import FairShare.Proofs.Outcome
import FairShare.Proofs.Shape

/-!
# Workers between slices

A worker whose thread is on its way from one slice to the next, or within one, is not retired, unless somebody is just
about to take its slice over. That needs the watchdog to come in time: it has to take a slice over before the worker
ends it. `Pool.InTime` says so of an action.
-/

namespace FairShare.Scheduler

variable {n : Nat}

namespace Instr

/-- Whether an instruction does not lie between two slices of a worker. -/
@[simp] def bounds (w : WorkerId) : Instr n → Bool
  | .startWorker w' | .closeSlice w' _ _ | .retire w' | .takeAbandoned w' | .decideRespawn w' | .vacate w' _ => w' = w
  | _ => false

/-- Whether an instruction withdraws the slice of a worker. -/
@[simp] def withdraws (w : WorkerId) : Instr n → Bool
  | .closeSlice w' _ _ | .takeAbandoned w' => w' = w
  | _ => false

/-- Whether an instruction decides on the replacement of a worker. -/
@[simp] def decides (w : WorkerId) : Instr n → Bool
  | .decideRespawn w' => w' = w
  | _ => false

/-- A worker's thread is on its way from one slice to the next. -/
structure Engaged (w : WorkerId) (code : List (Instr n)) : Prop where
  next : .nextSlice w ∈ code
  busy : code ≠ [.nextSlice w]
  between : ∀ i ∈ code, bounds w i = false

end Instr

open Instr

namespace Books

variable {b b' : Books n}

/-- Hiring publishes no slice and retires nobody. -/
theorem Hires.extends (h : b.Hires b') :
    (∀ (w : WorkerId) (e : Fin n), b'.current[w]? = some (some e) → b.current[w]? = some (some e)) ∧
      ∀ (w : WorkerId) (up : Bool), b.live[w]? = some up → b'.live[w]? = some up := by
  induction h with
  | refl => exact ⟨fun _ _ => id, fun _ _ => id⟩
  | worker h ih =>
    refine ⟨fun w e hw => ?_, fun w up hw => ih.2 w up ?_⟩
    · have hw := ih.1 w e hw
      simp only [hireWorker, List.getElem?_append] at hw
      split at hw
      · exact hw
      · simp [List.getElem?_singleton] at hw
    · simp only [hireWorker]
      rw [List.getElem?_append_left (List.getElem?_eq_some_iff.1 hw).1]
      exact hw
  | watchdog h ih => exact ih

/-- A published slice stays so until it is withdrawn. -/
theorem Hires.current_keep (h : b.Hires b') {w : WorkerId} {x : Option (Fin n)} (hw : b.current[w]? = some x) :
    b'.current[w]? = some x := by
  induction h with
  | refl => exact hw
  | worker _ ih => exact ih ((List.getElem?_append_left (List.getElem?_eq_some_iff.1 hw).1).trans hw)
  | watchdog _ ih => exact ih hw

/-- Two threads together have no more of a kind to do than all threads. -/
theorem countP_two {t t' : ThreadId} {code code' : List (Instr n)} (p : Instr n → Bool) (hne : t ≠ t')
    (ht : b.codes[t]? = some code) (ht' : b.codes[t']? = some code') :
    code.countP p + code'.countP p ≤ b.todo.countP p := by
  have hset := countP_flatten_set p ht []
  have ht'' : (b.codes.set t [])[t']? = some code' := by rw [List.getElem?_set_ne hne]; exact ht'
  have hset' := countP_flatten_set p ht'' []
  show _ ≤ b.codes.flatten.countP p
  simp only [List.countP_nil] at hset hset'
  omega

/-- Only one thread has the next round of a worker to do. -/
theorem Orderly.thread_unique (ho : b.Orderly) {t t' : ThreadId} {code code' : List (Instr n)} {w : WorkerId}
    (ht : b.codes[t]? = some code) (ht' : b.codes[t']? = some code') (hw : .nextSlice w ∈ code)
    (hw' : .nextSlice w ∈ code') : t = t' := by
  by_cases hne : t = t'
  · exact hne
  · have h1 := countP_two (nexts w) hne ht ht'
    have h2 := ho.single w
    have h3 : 0 < code.countP (nexts w) := List.countP_pos_iff.2 ⟨_, hw, by simp⟩
    have h4 : 0 < code'.countP (nexts w) := List.countP_pos_iff.2 ⟨_, hw', by simp⟩
    omega

/-- A slice is closed by the thread of its worker. -/
theorem Orderly.closing_thread (ho : b.Orderly) {w : WorkerId} {e : Fin n} (hpos : 0 < b.todo.countP (closes w e)) :
    ∃ (t : ThreadId) (code : List (Instr n)) (a : UInt64), b.codes[t]? = some code ∧ .closeSlice w e a ∈ code ∧
      .nextSlice w ∈ code := by
  obtain ⟨x, hx, hcl⟩ := List.countP_pos_iff.1 hpos
  obtain ⟨code, hcode, hx⟩ := List.mem_flatten.1 hx
  obtain ⟨t, ht⟩ := List.getElem?_of_mem hcode
  have hs : 0 < code.countP (slices w) :=
    Nat.lt_of_lt_of_le (List.countP_pos_iff.2 ⟨x, hx, hcl⟩) (closes_le_slices w e code)
  obtain ⟨y, hy, hny⟩ := List.countP_pos_iff.1 (Nat.lt_of_lt_of_le hs ((ho.inOrder _ hcode).slices w))
  obtain rfl := eq_of_nexts hny
  obtain ⟨a, rfl⟩ := eq_of_closes hcl
  exact ⟨t, code, a, ht, hx, hy⟩

/-- The thread of a worker that has a slice has still to close it. -/
theorem Orderly.closer (ho : b.Orderly) {w : WorkerId} {e : Fin n} (hc : b.current[w]? = some (some e)) :
    ∃ (t : ThreadId) (code : List (Instr n)) (a : UInt64), b.codes[t]? = some code ∧ .closeSlice w e a ∈ code ∧
      .nextSlice w ∈ code :=
  ho.closing_thread (ho.staffed.published w e hc)

end Books

namespace Instr

variable {b b' : Books n} {g g' : Gear n} {i : Instr n} {next : List (Instr n)}

/-- A slice is published by one instruction, and is not published after it was withdrawn. -/
theorem Outcome.current (ho : Outcome b g i b' g' next) {w : WorkerId} {e : Fin n}
    (h : b'.current[w]? = some (some e)) :
    b.current[w]? = some (some e) ∧ withdraws w i = false ∨ ∃ a, i = .publish w e a := by
  have hset : ∀ (w' : WorkerId), (b.current.set w' none)[w]? = some (some e) →
      b.current[w]? = some (some e) ∧ w' ≠ w := by
    intro w' hs
    by_cases hne : w' = w
    · subst hne
      have hlt := (List.getElem?_eq_some_iff.1 hs).1
      rw [List.length_set] at hlt
      rw [List.getElem?_set_self hlt] at hs
      cases hs
    · rw [List.getElem?_set_ne hne] at hs
      exact ⟨hs, hne⟩
  cases ho
  case push hh hr hm => exact Or.inl ⟨hh.extends.1 w e h, rfl⟩
  case hire hh hr hs => exact Or.inl ⟨hh.extends.1 w e h, rfl⟩
  case unseated hh hs => exact Or.inl ⟨hh.extends.1 w e h, rfl⟩
  case displaced hh hs hs' => exact Or.inl ⟨hh.extends.1 w e h, rfl⟩
  case leave hh hs hs' => exact Or.inl ⟨hh.extends.1 w e h, rfl⟩
  case replace hh hs hs' => exact Or.inl ⟨hh.extends.1 w e h, rfl⟩
  case withdraw e' =>
    refine Or.inl ⟨?_, rfl⟩
    simp only [Books.mark] at h
    split at h <;> exact h
  case take w' e' idle hi h' =>
    refine Or.inl ⟨h'.staff.1 ▸ h, ?_⟩
    rcases hi with ⟨rfl, -⟩ | ⟨rfl, -⟩ <;> rfl
  case close w' idle hp hi h' =>
    refine Or.inl ⟨h'.staff.1 ▸ h, ?_⟩
    rcases hi with ⟨rfl, -⟩ | ⟨rfl, -⟩ <;> rfl
  case await w' idle hp hi h' =>
    refine Or.inl ⟨h'.staff.1 ▸ h, ?_⟩
    rcases hi with ⟨rfl, -⟩ | ⟨rfl, -⟩ <;> rfl
  case publish w' e' a =>
    by_cases hne : w' = w
    · subst hne
      have hlt := (List.getElem?_eq_some_iff.1 h).1
      rw [List.length_set] at hlt
      rw [List.getElem?_set_self hlt] at h
      cases h
      exact Or.inr ⟨a, rfl⟩
    · rw [List.getElem?_set_ne hne] at h
      exact Or.inl ⟨h, rfl⟩
  case endSlice w' e₁ e₂ a slice hc =>
    obtain ⟨hw, hne⟩ := hset w' h
    exact Or.inl ⟨hw, by simp [hne]⟩
  case lostSlice w' e' a hc =>
    obtain ⟨hw, hne⟩ := hset w' h
    exact Or.inl ⟨hw, by simp [hne]⟩
  case abandon w' e' hc =>
    obtain ⟨hw, hne⟩ := hset w' h
    exact Or.inl ⟨hw, by simp [hne]⟩
  case unburdened w' hc =>
    obtain ⟨hw, hne⟩ := hset w' h
    exact Or.inl ⟨hw, by simp [hne]⟩
  all_goals exact Or.inl ⟨h, rfl⟩

/-- What a worker runs stays with it, unless it is withdrawn or another slice is published. -/
theorem Outcome.current_keep (ho : Outcome b g i b' g' next) {w : WorkerId} {e : Fin n}
    (h : b.current[w]? = some (some e)) :
    b'.current[w]? = some (some e) ∨ withdraws w i = true ∨ ∃ e' a, i = .publish w e' a := by
  have hset : ∀ (w' : WorkerId) (x : Option (Fin n)), w' ≠ w → (b.current.set w' x)[w]? = some (some e) :=
    fun w' x hne => by rw [List.getElem?_set_ne hne]; exact h
  cases ho
  case push hh hr hm => exact Or.inl (hh.current_keep h)
  case hire hh hr hs => exact Or.inl (hh.current_keep h)
  case unseated hh hs => exact Or.inl (hh.current_keep h)
  case displaced hh hs hs' => exact Or.inl (hh.current_keep h)
  case leave hh hs hs' => exact Or.inl (hh.current_keep h)
  case replace hh hs hs' => exact Or.inl (hh.current_keep h)
  case withdraw e' =>
    refine Or.inl ?_
    simp only [Books.mark]
    split <;> exact h
  case take htake => exact Or.inl (htake.staff.1 ▸ h)
  case close htake => exact Or.inl (htake.staff.1 ▸ h)
  case await htake => exact Or.inl (htake.staff.1 ▸ h)
  case publish w' e' a =>
    by_cases hne : w' = w
    · exact Or.inr (Or.inr ⟨e', a, hne ▸ rfl⟩)
    · exact Or.inl (hset w' _ hne)
  case endSlice w' e₁ e₂ a slice hc =>
    by_cases hne : w' = w
    · exact Or.inr (Or.inl (by simp [hne]))
    · exact Or.inl (hset w' _ hne)
  case lostSlice w' e' a hc =>
    by_cases hne : w' = w
    · exact Or.inr (Or.inl (by simp [hne]))
    · exact Or.inl (hset w' _ hne)
  case abandon w' e' hc =>
    by_cases hne : w' = w
    · exact Or.inr (Or.inl (by simp [hne]))
    · exact Or.inl (hset w' _ hne)
  case unburdened w' hc =>
    by_cases hne : w' = w
    · exact Or.inr (Or.inl (by simp [hne]))
    · exact Or.inl (hset w' _ hne)
  all_goals exact Or.inl h

/-- A worker is retired by one instruction, for good. -/
theorem Outcome.live (ho : Outcome b g i b' g' next) {w : WorkerId} {up : Bool} (h : b.live[w]? = some up) :
    b'.live[w]? = some up ∨
      up = true ∧ i = .retire w ∧ next = [.takeAbandoned w, .decideRespawn w] ∧ b'.live[w]? = some false := by
  have hgrow : (b.live ++ [true])[w]? = some up := by
    rw [List.getElem?_append_left (List.getElem?_eq_some_iff.1 h).1]
    exact h
  cases ho
  case hire => exact Or.inl hgrow
  case replace => exact Or.inl hgrow
  case withdraw e' =>
    refine Or.inl ?_
    simp only [Books.mark]
    split <;> exact h
  case take w' e' idle hi h' => exact Or.inl (h'.staff.2.1 ▸ h)
  case close w' idle hp hi h' => exact Or.inl (h'.staff.2.1 ▸ h)
  case await w' idle hp hi h' => exact Or.inl (h'.staff.2.1 ▸ h)
  case retire w' hw' =>
    by_cases hne : w' = w
    · subst hne
      rw [hw'] at h
      cases h
      exact Or.inr ⟨rfl, rfl, rfl, List.getElem?_set_self (List.getElem?_eq_some_iff.1 hw').1⟩
    · exact Or.inl (by rw [List.getElem?_set_ne hne]; exact h)
  all_goals exact Or.inl h

theorem Base.abandons {w : WorkerId} {base : List (Instr n)} (h : Base w base) (w' : WorkerId) :
    base.countP (abandons w') = 0 := by
  rcases h with rfl | rfl | ⟨ws, rfl⟩
  · rfl
  · simp
  · rw [List.countP_eq_zero]
    intro x hx
    rcases List.mem_append.1 hx with hx | hx
    · obtain ⟨v, -, rfl⟩ := List.mem_map.1 hx
      simp
    · rw [List.mem_singleton.1 hx]
      simp

theorem Left.abandons {left : List (Instr n)} (h : Left left) (w : WorkerId) : left.countP (abandons w) = 0 := by
  obtain ⟨w', rfl | ⟨base, hbase, rfl⟩⟩ := h
  · simp
  · rw [List.countP_cons_of_neg (by simp)]
    exact hbase.abandons w

theorem Noted.abandons {rest : List (Instr n)} (h : Noted rest) (w : WorkerId) : rest.countP (abandons w) = 0 := by
  obtain ⟨accounts, e, left, ha, hleft, rfl⟩ := h
  have hz : accounts.countP (Instr.abandons w) = 0 := by
    rw [List.countP_eq_zero]
    intro x hx
    rcases ha x hx with ⟨e', o, rfl⟩ | ⟨e', before, after, rfl⟩ <;> simp
  rw [List.countP_append, hz, List.countP_cons_of_neg (by simp), hleft.abandons w]

/-- Whoever takes a slice over decides on the replacement of the worker afterwards. -/
theorem Fitting.abandons_le {code : List (Instr n)} (h : Fitting code) (w : WorkerId) :
    code.countP (abandons w) ≤ code.countP (decides w) := by
  induction code with
  | nil => exact Nat.le_refl 0
  | cons i rest ih =>
    obtain ⟨hi, hr⟩ := h
    by_cases ha : Instr.abandons w i = true
    · obtain rfl := Instr.eq_of_abandons ha
      obtain ⟨base, hbase, rfl⟩ := hi
      have hz := hbase.abandons w
      simp [hz]
    · have := ih hr
      rw [List.countP_cons_of_neg ha, List.countP_cons]
      omega

/-- What a retirement comes from. -/
theorem Leads.retires {w : WorkerId} (hl : i.Leads next) (h : .retire w ∈ next) :
    (i = .nextSlice w ∧ next = [.retire w]) ∨ i = .seekWork w ∨ i = .awaitWork w ∨ ∃ e o, i = .press w e o := by
  cases hl.yields h with
  | dismiss => exact Or.inl ⟨rfl, by rcases hl with rfl | rfl | rfl <;> simp_all⟩
  | seekRetire => exact Or.inr (Or.inl rfl)
  | awaitRetire => exact Or.inr (Or.inr (Or.inl rfl))
  | giveUp e o => exact Or.inr (Or.inr (Or.inr ⟨_, _, rfl⟩))

end Instr

/-! ## Guards -/

namespace Books

variable {b b' : Books n} {g g' : Gear n}

/-- A worker is not retired, or somebody is about to take its slice over. -/
def Guards (b : Books n) (w : WorkerId) : Prop := b.live[w]? = some true ∨ 0 < b.todo.countP (abandons w)

/-- Whoever has something to do for a slice is a worker that is not retired, unless somebody is about to take the
slice over. -/
structure Guarded (b : Books n) : Prop where
  /-- A worker that has published a slice. -/
  held : ∀ (w : WorkerId) (e : Fin n), b.current[w]? = some (some e) → b.Guards w
  /-- A worker between two slices. -/
  engaged : ∀ (t : ThreadId) (code : List (Instr n)) (w : WorkerId),
    b.codes[t]? = some code → Engaged w code → b.Guards w
  /-- A worker that ends its thread by retiring is retired already. -/
  dismissed : ∀ code ∈ b.codes, ∀ w, code.getLast? = some (.retire w) → b.live[w]? = some false

/-- A worker that ends its thread by retiring is retired already. -/
def Dismissed (b : Books n) : Prop :=
  ∀ code ∈ b.codes, ∀ w, code.getLast? = some (.retire w) → b.live[w]? = some false

theorem Guarded.start : Guarded (start : Books n) := by
  constructor <;> simp [Books.start]

/-- Whoever takes a slice over that is not its own finds it there. -/
def InTime (b : Books n) (a : Action n) : Prop :=
  ∀ (t : ThreadId) (w : WorkerId) (rest : List (Instr n)), a = .step t →
    b.codes[t]? = some (.takeAbandoned w :: rest) → .nextSlice w ∉ rest → ∃ e, b.current[w]? = some (some e)

theorem abandons_begins (w : WorkerId) (code : List (Instr n)) (h : Begins code) : code.countP (abandons w) = 0 := by
  rcases h with ⟨w', rfl⟩ | rfl <;> simp

theorem Begins.not_engaged {code : List (Instr n)} (h : Begins code) (w : WorkerId) : ¬Engaged w code := by
  rintro ⟨hnext, -, hbetween⟩
  rcases h with ⟨w', rfl⟩ | rfl
  · simp at hnext hbetween
    exact hbetween hnext.symm
  · simp at hnext

variable {t : ThreadId} {i : Instr n} {rest next : List (Instr n)}

theorem guards_step (ht : b.codes[t]? = some (i :: rest))
    (he : i.Effect { b with codes := b.codes.set t rest } b' next)
    (hout : Outcome { b with codes := b.codes.set t rest } g i b' g' next) {w : WorkerId} (hi : abandons w i = false)
    (h : b.Guards w) : ({ b' with codes := b'.codes.set t (next ++ rest) } : Books n).Guards w := by
  have hcount := countP_step (abandons_begins w) ht he
  rw [List.countP_cons_of_neg (by rw [hi]; decide), List.countP_nil] at hcount
  rcases h with h | h
  · rcases hout.live h with hlive | ⟨-, -, rfl, -⟩
    · exact Or.inl hlive
    · refine Or.inr ?_
      rw [Nat.add_zero] at hcount
      rw [hcount]
      simp
  · exact Or.inr (by omega)

/-- What a thread on its way to the next slice did before. -/
theorem engaged_step (hf : b.Fitted) (ht : b.codes[t]? = some (i :: rest)) (hl : i.Leads next)
    {w : WorkerId} (h : Engaged w (next ++ rest)) :
    Engaged w (i :: rest) ∨ (i = .nextSlice w ∧ next = [.seekWork w, .nextSlice w]) ∨
      ∃ e a slice, i = .closeSlice w e a ∧ next = [.resetTimer e slice] := by
  obtain ⟨hnext, hbusy, hbetween⟩ := h
  have hfits := (hf _ (List.mem_of_getElem? ht)).1
  by_cases hr : .nextSlice w ∈ rest
  · by_cases hi : bounds w i = false
    · refine Or.inl ⟨List.mem_cons_of_mem _ hr, fun heq => ?_, fun j hj => ?_⟩
      · obtain ⟨-, rfl⟩ := List.cons.inj heq
        simp at hr
      · rcases List.mem_cons.1 hj with rfl | hj
        · exact hi
        · exact hbetween j (List.mem_append_right _ hj)
    · -- The instruction bounds the way between two slices, so it ends one: every other way leads to a retirement.
      have hbase : ∀ base : List (Instr n), Base w base → .nextSlice w ∈ base → base = [.nextSlice w] := by
        rintro base (rfl | rfl | ⟨ws, rfl⟩) hm
        · simp at hm
        · rfl
        · simp at hm
      cases i <;> simp only [bounds, decide_eq_false_iff_not, Decidable.not_not, not_true] at hi <;>
        try exact absurd trivial hi
      case startWorker w' =>
        cases hi
        cases hl
        exact absurd hfits hbusy
      case closeSlice w' e a =>
        obtain rfl : w' = w := by simpa using hi
        rcases hl with rfl | ⟨slice, rfl⟩
        · exact absurd hfits hbusy
        · exact Or.inr (Or.inr ⟨e, a, slice, rfl, rfl⟩)
      case retire w' =>
        obtain rfl : w' = w := by simpa using hi
        rcases hl with rfl | rfl
        · exact absurd (hbase rest hfits hr) hbusy
        · simpa using hbetween (.takeAbandoned w') (by simp)
      case takeAbandoned w' =>
        obtain rfl : w' = w := by simpa using hi
        obtain ⟨base, -, rfl⟩ := hfits
        simpa using hbetween (.decideRespawn w') (by simp)
      case decideRespawn w' =>
        obtain rfl : w' = w := by simpa using hi
        obtain ⟨respawn, rfl⟩ := hl
        simpa using hbetween (.vacate w' respawn) (by simp)
      case vacate w' respawn =>
        obtain rfl : w' = w := by simpa using hi
        cases hl
        exact absurd (hbase rest hfits hr) hbusy
  · have hn : .nextSlice w ∈ next := (List.mem_append.1 hnext).resolve_right hr
    have hk := hl.keeps.nexts w
    have hpos : 0 < next.countP (nexts w) := List.countP_pos_iff.2 ⟨_, hn, by simp⟩
    obtain ⟨j, hj, hp⟩ := List.countP_pos_iff.1 (Nat.lt_of_lt_of_le hpos hk)
    obtain rfl := List.mem_singleton.1 hj
    obtain rfl := eq_of_nexts hp
    rcases hl with rfl | rfl | rfl
    · simp at hn
    · simp at hn
    · exact Or.inr (Or.inl ⟨rfl, rfl⟩)

/-- A thread comes to end with a retirement of its worker only when the worker is retired. -/
theorem Dismissed.before (h : b.Dismissed) (hf : b.Fitted) (ht : b.codes[t]? = some (i :: rest)) (hl : i.Leads next)
    {w : WorkerId} (hlast : (next ++ rest).getLast? = some (.retire w)) :
    b.live[w]? = some false ∨ i = .nextSlice w ∧ next = [.retire w] := by
  have hmem := List.mem_of_getElem? ht
  have hfits := (hf _ hmem).1
  by_cases hr : rest = []
  · subst hr
    rw [List.append_nil] at hlast
    rcases hl.retires (List.mem_of_getLast? hlast) with h | rfl | rfl | ⟨e, o, rfl⟩
    · exact Or.inr h
    · cases hfits
    · cases hfits
    · obtain ⟨ws, hws⟩ := hfits
      simp at hws
  · have hlast' : ∀ front : List (Instr n), (front ++ rest).getLast? = rest.getLast? := by
      intro front
      rw [List.getLast?_append, List.getLast?_eq_some_getLast hr]
      rfl
    refine Or.inl (h _ hmem w ?_)
    rw [← List.singleton_append, hlast', ← hlast' next]
    exact hlast

/-- Nobody else is on its way to the next slice of a worker when its slice is taken over in time. -/
theorem not_engaged_of_takeAbandoned (ho : b.Orderly) {w : WorkerId}
    (ht : b.codes[t]? = some (.takeAbandoned w :: rest))
    (hin : .nextSlice w ∉ rest → ∃ e, b.current[w]? = some (some e)) {t' : ThreadId} {code : List (Instr n)}
    (ht' : b.codes[t']? = some code) (hc : Engaged w code) : False := by
  have hne : .takeAbandoned w ∉ code := fun hm => by simpa using hc.between _ hm
  by_cases hr : .nextSlice w ∈ rest
  · obtain rfl := ho.thread_unique ht ht' (List.mem_cons_of_mem _ hr) hc.next
    rw [ht] at ht'
    obtain rfl := Option.some.inj ht'
    simp at hne
  · obtain ⟨e, he⟩ := hin hr
    obtain ⟨t'', code', a, ht'', hclose, hnext⟩ := ho.closer he
    obtain rfl := ho.thread_unique ht' ht'' hc.next hnext
    rw [ht'] at ht''
    obtain rfl := Option.some.inj ht''
    simpa using hc.between _ hclose

/-- What other threads, and those that are started, have to do after a step. -/
theorem codes_after (ht : b.codes[t]? = some (i :: rest))
    (he : i.Effect { b with codes := b.codes.set t rest } b' next) {t' : ThreadId} {code : List (Instr n)}
    (h : (b'.codes.set t (next ++ rest))[t']? = some code) :
    (t' = t ∧ code = next ++ rest) ∨ (t' ≠ t ∧ b.codes[t']? = some code) ∨ Begins code := by
  obtain ⟨extra, hcodes, hextra⟩ := codes_step ht he
  rw [hcodes, List.getElem?_append] at h
  split at h
  · by_cases hne : t = t'
    · subst hne
      rw [List.getElem?_set_self (List.getElem?_eq_some_iff.1 ht).1] at h
      exact Or.inl ⟨rfl, (Option.some.inj h).symm⟩
    · rw [List.getElem?_set_ne hne] at h
      exact Or.inr (Or.inl ⟨Ne.symm hne, h⟩)
  · exact Or.inr (Or.inr (hextra _ (List.mem_of_getElem? h)))

theorem Dismissed.goes (h : b.Dismissed) (hf : b.Fitted) {a : Action n} (hg : Goes b g a b' g') : b'.Dismissed := by
  intro code hc w hlast
  cases hg with
  | rest => exact h code hc w hlast
  | advance => exact h code hc w hlast
  | arrive c =>
    rcases List.mem_append.1 hc with hc | hc
    · exact h code hc w hlast
    · rw [List.mem_singleton.1 hc] at hlast
      simp at hlast
  | perform t w' e rest next a ht ha =>
    rcases List.mem_or_eq_of_mem_set hc with hc | rfl
    · exact h code hc w hlast
    · rcases h.before hf ht ha.leads hlast with hold | ⟨hi, -⟩
      · exact hold
      · cases hi
  | step t i rest next b' g' ht hwork he hl hd =>
    have hout := outcome hwork he hl hd
    obtain ⟨t', ht'⟩ := List.getElem?_of_mem hc
    have hlive : b.live[w]? = some false → b'.live[w]? = some false := by
      intro hlive
      rcases hout.live hlive with hlive | ⟨hup, -⟩
      · exact hlive
      · cases hup
    rcases codes_after ht he ht' with ⟨rfl, rfl⟩ | ⟨-, hold⟩ | ⟨w', rfl⟩ | rfl
    · rcases h.before hf ht hl hlast with hold | ⟨rfl, rfl⟩
      · exact hlive hold
      · cases hout with
        | dismiss _ hold => exact hold
        | close _ _ _ _ _ _ hi => rcases hi with ⟨hi, -⟩ | ⟨hi, -⟩ <;> cases hi
    · exact hlive (h code (List.mem_of_getElem? hold) w hlast)
    · simp at hlast
    · simp at hlast
  | tear t e o rest ht hfail =>
    rcases List.mem_or_eq_of_mem_set hc with hc | rfl
    · exact h code hc w hlast
    · simp at hlast

theorem Guarded.step (h : b.Guarded) (hf : b.Fitted) (ho : b.Orderly) (ht : b.codes[t]? = some (i :: rest))
    (he : i.Effect { b with codes := b.codes.set t rest } b' next) (hl : i.Leads next)
    (hout : Outcome { b with codes := b.codes.set t rest } g i b' g' next) (hin : b.InTime (.step t))
    (hdismissed : ({ b' with codes := b'.codes.set t (next ++ rest) } : Books n).Dismissed) :
    Guarded { b' with codes := b'.codes.set t (next ++ rest) } := by
  have hmem := List.mem_of_getElem? ht
  have hguards : ∀ w, abandons w i = false → b.Guards w →
      ({ b' with codes := b'.codes.set t (next ++ rest) } : Books n).Guards w :=
    fun w hi hw => guards_step ht he hout hi hw
  refine ⟨?held, ?engaged, hdismissed⟩
  case held =>
    intro w e hw
    rcases hout.current hw with ⟨hc, hwithdraws⟩ | ⟨a, rfl⟩
    · exact hguards w (by cases i <;> simp_all) (h.held w e hc)
    · have hrest : rest = [.nextSlice w] := (hf _ hmem).1
      refine hguards w rfl (h.engaged t _ w ht ⟨by simp [hrest], by simp, ?_⟩)
      rw [hrest]
      simp
  case engaged =>
    intro t' code w ht' hc
    rcases codes_after ht he ht' with ⟨rfl, rfl⟩ | ⟨hne, hold⟩ | hb
    · rcases engaged_step hf ht hl hc with hc | ⟨rfl, rfl⟩ | ⟨e, a, slice, rfl, rfl⟩
      · refine hguards w ?_ (h.engaged _ _ w ht hc)
        have hb := hc.between i (List.mem_cons_self ..)
        cases i <;> simp_all
      · cases hout with
        | round _ hlive => exact Or.inl hlive
      · cases hout with
        | endSlice _ _ e' _ _ hcur => exact hguards w rfl (h.held w e' hcur)
    · by_cases hi : abandons w i = false
      · exact hguards w hi (h.engaged t' code w hold hc)
      · cases i <;> simp only [abandons, not_true] at hi
        case takeAbandoned w' =>
          obtain rfl : w' = w := by simpa using hi
          exact absurd hc fun hc => not_engaged_of_takeAbandoned ho ht (hin t w' rest rfl ht) hold hc
    · exact absurd hc (hb.not_engaged w)
/-- Workers are guarded after every action that is in time. -/
theorem Guarded.goes (h : b.Guarded) (hf : b.Fitted) (ho : b.Orderly) {a : Action n} (hg : Goes b g a b' g')
    (hin : b.InTime a) : b'.Guarded := by
  have hdismissed := Dismissed.goes h.dismissed hf hg
  cases hg with
  | rest => exact h
  | advance => exact h
  | arrive c =>
    have hguards : ∀ w, b.Guards w → ({ b with codes := b.codes ++ [[.call c]] } : Books n).Guards w := by
      intro w hw
      refine hw.imp_right fun hpos => ?_
      rw [countP_arrive]
      exact Nat.lt_of_lt_of_le hpos (Nat.le_add_right ..)
    refine ⟨fun w e hw => hguards w (h.held w e hw), fun t code w ht hc => ?_, hdismissed⟩
    · rcases List.mem_append.1 (List.mem_of_getElem? ht) with hm | hm
      · obtain ⟨t', ht'⟩ := List.getElem?_of_mem hm
        exact hguards w (h.engaged t' code w ht' hc)
      · have hnext := hc.next
        rw [List.mem_singleton.1 hm] at hnext
        simp at hnext
  | perform t w e rest next a ht ha =>
    have hguards : ∀ w', b.Guards w' → ({ b with codes := b.codes.set t (next ++ rest) } : Books n).Guards w' := by
      intro w' hw
      refine hw.imp_right fun hpos => ?_
      have hc := countP_replace (abandons w') ht next
      have hk := ha.leads.keeps.abandons w' (by simp)
      simp at hc hk
      omega
    refine ⟨fun w' e' hw => hguards w' (h.held w' e' hw), fun t' code w' ht' hc => ?_, hdismissed⟩
    · by_cases hne : t = t'
      · subst hne
        have hlt := (List.getElem?_eq_some_iff.1 ht).1
        rw [List.getElem?_set_self hlt] at ht'
        obtain rfl := Option.some.inj ht'
        rcases engaged_step hf ht ha.leads hc with hc | ⟨hi, -⟩ | ⟨e', a', slice, hi, -⟩
        · exact hguards w' (h.engaged t _ w' ht hc)
        · cases hi
        · cases hi
      · rw [List.getElem?_set_ne hne] at ht'
        exact hguards w' (h.engaged t' code w' ht' hc)
  | step t i rest next b' g' ht hw he hl hd =>
    exact h.step hf ho ht he hl (outcome hw he hl hd) hin hdismissed
  | tear t e o rest ht hfail =>
    have hnone : ∀ w, (Instr.account e o :: rest).countP (abandons w) = 0 := by
      intro w
      rw [List.countP_cons_of_neg (by simp)]
      exact ((hf _ (List.mem_of_getElem? ht)).1).abandons w
    have hguards : ∀ w, b.Guards w → ({ b with codes := b.codes.set t [] } : Books n).Guards w := by
      intro w hw
      refine hw.imp_right fun hpos => ?_
      have hset := countP_flatten_set (abandons w) ht []
      rw [hnone w] at hset
      show 0 < (b.codes.set t []).flatten.countP (abandons w)
      have hpos : 0 < b.codes.flatten.countP (abandons w) := hpos
      simp only [List.countP_nil] at hset
      omega
    refine ⟨fun w e' hw => hguards w (h.held w e' hw), fun t' code w ht' hc => ?_, hdismissed⟩
    · by_cases hne : t = t'
      · subst hne
        rw [List.getElem?_set_self (List.getElem?_eq_some_iff.1 ht).1] at ht'
        obtain rfl := Option.some.inj ht'
        exact absurd hc.next (by simp)
      · rw [List.getElem?_set_ne hne] at ht'
        exact hguards w (h.engaged t' code w ht' hc)

/-- Whoever retires a worker has something to do after that. -/
def Staying (b : Books n) : Prop := ∀ code ∈ b.codes, ∀ w, code.getLast? ≠ some (.decideRespawn w)

/-- Whoever takes over the slice of a worker is that worker, or a watchdog on its round. -/
theorem takes_of_staying (hs : b.Staying) (hf : b.Fitted) {w : WorkerId} {front rest : List (Instr n)}
    (hc : front ++ .takeAbandoned w :: rest ∈ b.codes) :
    rest = [.decideRespawn w, .nextSlice w] ∨
      ∃ round, Round round ∧ rest = .decideRespawn w :: round := by
  obtain ⟨⟨base, hbase, rfl⟩, -⟩ := (hf _ hc).of_append
  rcases hbase with rfl | rfl | hround
  · exact absurd (by simp) (hs _ hc w)
  · exact Or.inl rfl
  · exact Or.inr ⟨base, hround, rfl⟩

/-- Whoever begins to retire a worker has something to do after that. -/
theorem Dismissed.staying_step (h : b.Dismissed) (hs : b.Staying) (hmem : i :: rest ∈ b.codes) (hl : i.Leads next)
    (hretire : ∀ w, i = .retire w → b.live[w]? ≠ some true → next = []) (w : WorkerId) :
    (next ++ rest).getLast? ≠ some (.decideRespawn w) := by
  intro hlast
  by_cases hr : rest = []
  · subst hr
    rw [List.append_nil] at hlast
    have hm := List.mem_of_getLast? hlast
    cases hl.yields hm with
    | decideRespawn =>
      have hdead := h _ hmem w rfl
      rw [hretire w rfl (by simp [hdead])] at hm
      simp at hm
  · refine hs _ hmem w ?_
    rw [← hlast, List.getLast?_append, List.getLast?_cons]
    obtain ⟨x, hx⟩ := Option.ne_none_iff_exists'.1 (mt List.getLast?_eq_none_iff.1 hr)
    simp [hx]

theorem Staying.goes (hs : b.Staying) (h : b.Dismissed) {a : Action n} (hg : Goes b g a b' g') : b'.Staying := by
  cases hg with
  | rest => exact hs
  | advance => exact hs
  | arrive c =>
    intro code hc w
    rcases List.mem_append.1 hc with hc | hc
    · exact hs code hc w
    · rw [List.mem_singleton.1 hc]
      simp
  | perform t w e rest next a ht ha =>
    intro code hc w'
    rcases List.mem_or_eq_of_mem_set hc with hc | rfl
    · exact hs code hc w'
    · exact h.staying_step hs (List.mem_of_getElem? ht) ha.leads (fun _ hi => by cases hi) w'
  | step t i rest next b' g' ht hwork he hl hd =>
    intro code hc w
    obtain ⟨t', ht'⟩ := List.getElem?_of_mem hc
    rcases codes_after ht he ht' with ⟨rfl, rfl⟩ | ⟨-, hold⟩ | ⟨w', rfl⟩ | rfl
    · refine h.staying_step hs (List.mem_of_getElem? ht) hl (fun w' hi hlive => ?_) w
      subst hi
      rcases he with ⟨hup, -⟩ | ⟨-, -, hn⟩
      · exact absurd hup hlive
      · exact hn
    · exact hs code (List.mem_of_getElem? hold) w
    · simp
    · simp
  | tear t e o rest ht hfail =>
    intro code hc w
    rcases List.mem_or_eq_of_mem_set hc with hc | rfl
    · exact hs code hc w
    · simp

end Books

end FairShare.Scheduler
