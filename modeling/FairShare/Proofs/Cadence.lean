import FairShare.Proofs.Conservation
import FairShare.Proofs.Vigil

/-!
# The waits of the watchdog

A submit that makes the scheduler busy wakes the watchdog, and nothing else does. While the watchdog sleeps, an executor
that is queued again comes with the worker that ran it, which then takes an executor. So a scheduler that was not busy
when the watchdog began to wait has for every executor that is queued a worker that is idle or on its way to the run
queue, as long as no submit that meets it busy needs one that others need too.
-/

namespace FairShare.Scheduler

variable {n : Nat}

open Instr

namespace Instr

variable {live live' : List Bool} {code : List (Instr n)}

/-- Whether a thread is next to look for an executor, for a worker that is not retired. -/
def returns (live : List Bool) : List (Instr n) → Bool
  | .startWorker w :: _ | .nextSlice w :: _ => live[w]? == some true
  | .seekWork _ :: _ => true
  | _ => false

theorem returns_keep (h : returns live code = true)
    (hkeep : ∀ w i rest, code = i :: rest → i = .startWorker w ∨ i = .nextSlice w → live[w]? = some true →
      live'[w]? = some true) : returns live' code = true := by
  unfold returns at h ⊢
  split at h
  · rename_i w rest
    exact beq_iff_eq.2 (hkeep w _ rest rfl (Or.inl rfl) (beq_iff_eq.1 h))
  · rename_i w rest
    exact beq_iff_eq.2 (hkeep w _ rest rfl (Or.inr rfl) (beq_iff_eq.1 h))
  · rfl
  · cases h

/-- A worker on its own thread is withdrawn from its last slice, which it has closed. -/
def Withdrawn (w : WorkerId) (code : List (Instr n)) : Prop :=
  code = [.takeAbandoned w, .decideRespawn w, .nextSlice w] ∨ code = [.decideRespawn w, .nextSlice w]

end Instr

/-- Changing one of the lists changes how many have a property by that list, where the empty list does not have it. -/
theorem countP_set_add {α : Type} (p : α → Bool) {l : List α} {k : Nat} {x : α} (h : l[k]? = some x) (y : α) :
    (l.set k y).countP p + (p x).toNat = l.countP p + (p y).toNat := by
  obtain ⟨hlt, rfl⟩ := List.getElem?_eq_some_iff.1 h
  rw [List.countP_set hlt]
  cases hx : p l[k] with
  | false => cases p y <;> simp
  | true =>
    have hpos : 0 < l.countP p := List.countP_pos_iff.2 ⟨_, List.getElem_mem hlt, hx⟩
    cases p y <;> simp only [if_true, Bool.false_eq_true, if_false, Bool.toNat_true, Bool.toNat_false] <;> omega

namespace Books

variable {b b' : Books n} {g g' : Gear n} {t : ThreadId} {i : Instr n} {rest next : List (Instr n)}

/-- How many workers are on their way to the run queue. -/
def returning (b : Books n) : Nat := b.codes.countP (returns b.live)

/-- A worker that is idle or on its way to the run queue comes for every executor that is queued. -/
def Covered (b : Books n) (g : Gear n) : Prop := b.queue.length ≤ g.idle + b.returning

/-- Whoever goes on with the rounds of a watchdog is asleep. -/
def Dozing (b : Books n) : Prop :=
  ∀ code ∈ b.codes, code.any watches = true → ∃ deadline, code = [.watching deadline, .inspect, .watch]

/-- A worker that retires on its own thread has no slice to end. -/
def Spent (b : Books n) : Prop :=
  ∀ code ∈ b.codes, ∀ w, .decideRespawn w ∈ code → .nextSlice w ∈ code → Withdrawn w code

theorem Spent.code_step (h : b.Spent) (hf : b.Fitted) (ho : b.Orderly) (ht : b.codes[t]? = some (i :: rest))
    (hl : i.Leads next)
    (htake : ∀ w, i = .takeAbandoned w → next ≠ [] → ∃ e, b.current[w]? = some (some e)) {w : WorkerId}
    (hd : .decideRespawn w ∈ next ++ rest) (hn : .nextSlice w ∈ next ++ rest) : Withdrawn w (next ++ rest) := by
  have hmem := List.mem_of_getElem? ht
  rcases List.mem_append.1 hd with hd | hd
  · cases hl.yields hd with
    | decideRespawn =>
      rcases hl with rfl | rfl
      · cases hd
      · have hbase : Base w rest := (hf _ hmem).1
        rcases hbase with rfl | rfl | ⟨ws, rfl⟩
        · simp at hn
        · exact Or.inl rfl
        · simp at hn
  · rcases h _ hmem w (List.mem_cons_of_mem _ hd) (hl.nextSlice hn) with hcode | hcode
    · obtain ⟨rfl, rfl⟩ := List.cons.inj hcode
      by_cases hnext : next = []
      · exact Or.inr (by rw [hnext]; rfl)
      · -- The slice would still have to be closed by the thread of its worker, which is this one.
        obtain ⟨e, hcur⟩ := htake w rfl hnext
        obtain ⟨t', code, a, ht', hclose, hnext'⟩ := ho.closer hcur
        obtain rfl := ho.thread_unique ht ht' (by simp) hnext'
        rw [ht] at ht'
        obtain rfl := Option.some.inj ht'
        simp at hclose
    · obtain ⟨rfl, rfl⟩ := List.cons.inj hcode
      simp at hd

theorem Spent.goes (h : b.Spent) (hf : b.Fitted) (ho : b.Orderly) {a : Action n} (hg : Goes b g a b' g') : b'.Spent := by
  cases hg with
  | rest => exact h
  | advance => exact h
  | arrive c =>
    intro code hcode w hd
    rcases List.mem_append.1 hcode with hcode | hcode
    · exact h code hcode w hd
    · rw [List.mem_singleton.1 hcode] at hd
      simp at hd
  | perform t w e rest next a ht ha =>
    intro code hcode w' hd hn
    rcases List.mem_or_eq_of_mem_set hcode with hcode | rfl
    · exact h code hcode w' hd hn
    · exact h.code_step hf ho ht ha.leads (by simp) hd hn
  | step t i rest next b' g' ht hw he hl hdrive =>
    intro code hcode w hd hn
    obtain ⟨t', ht'⟩ := List.getElem?_of_mem hcode
    rcases codes_after ht he ht' with ⟨-, rfl⟩ | ⟨-, hother⟩ | ⟨w', rfl⟩ | rfl
    · refine h.code_step hf ho ht hl ?_ hd hn
      rintro w' rfl hnext
      have hout := outcome hw he hl hdrive
      cases hout
      case abandon e hcur => exact ⟨e, hcur⟩
      case unburdened => exact absurd rfl hnext
      case take hi _ => rcases hi with ⟨hi, -⟩ | ⟨hi, -⟩ <;> cases hi
      case close hi _ => rcases hi with ⟨hi, -⟩ | ⟨hi, -⟩ <;> cases hi
      case await hi _ => rcases hi with ⟨hi, -⟩ | ⟨hi, -⟩ <;> cases hi
    · exact h code (List.mem_of_getElem? hother) w hd hn
    · simp at hd
    · simp at hd
  | tear t e o rest ht hfail =>
    intro code hcode w hd
    rcases List.mem_or_eq_of_mem_set hcode with hcode | rfl
    · exact h code hcode w hd
    · cases hd

/-- How many workers are on their way to the run queue after a step. -/
theorem returning_step (ht : b.codes[t]? = some (i :: rest))
    (he : i.Effect { b with codes := b.codes.set t rest } b' next)
    (hkeep : ∀ (t' : ThreadId) (code : List (Instr n)), t' ≠ t → b.codes[t']? = some code →
      returns b.live code = true → returns b'.live code = true) :
    b.returning + (returns b'.live (next ++ rest)).toNat + (b'.codes.drop b.codes.length).countP (returns b'.live) ≤
      ({ b' with codes := b'.codes.set t (next ++ rest) } : Books n).returning +
        (returns b.live (i :: rest)).toNat := by
  obtain ⟨extra, hcodes, -⟩ := begins_of_effect he
  have hlt := (List.getElem?_eq_some_iff.1 ht).1
  have hextra : b'.codes.drop b.codes.length = extra := by
    rw [hcodes, List.drop_append_of_le_length (by simp)]
    simp
  have hothers : (b.codes.set t []).countP (returns b.live) ≤ (b.codes.set t []).countP (returns b'.live) := by
    refine List.countP_mono_left fun code hcode hr => ?_
    obtain ⟨t', ht'⟩ := List.getElem?_of_mem hcode
    by_cases hne : t' = t
    · subst hne
      rw [List.getElem?_set_self hlt] at ht'
      obtain rfl := Option.some.inj ht'
      cases hr
    · rw [List.getElem?_set_ne (Ne.symm hne)] at ht'
      exact hkeep t' code hne ht' hr
  have hold := countP_set_add (returns b.live) ht []
  have hnone : (b.codes.set t [])[t]? = some [] := List.getElem?_set_self hlt
  have hnew := countP_set_add (returns b'.live) hnone (next ++ rest)
  rw [List.set_set] at hnew
  have hafter : ({ b' with codes := b'.codes.set t (next ++ rest) } : Books n).returning =
      (b.codes.set t (next ++ rest)).countP (returns b'.live) + extra.countP (returns b'.live) := by
    show (b'.codes.set t (next ++ rest)).countP (returns b'.live) = _
    rw [hcodes, List.set_append_left t _ (by simpa using hlt), List.set_set, List.countP_append]
  have hnil : ∀ live : List Bool, returns live ([] : List (Instr n)) = false := fun _ => rfl
  rw [hnil] at hold hnew
  rw [hextra, hafter]
  show b.codes.countP (returns b.live) + _ + _ ≤ _
  simp only [Bool.toNat_false, Nat.add_zero] at hold hnew
  omega

/-- Nobody's worker is retired by another thread while the watchdog sleeps. -/
theorem returns_others (hgu : b.Guarded) (hdoze : b.Dozing) (hf : b.Fitted) (ho : b.Orderly)
    (ht : b.codes[t]? = some (i :: rest)) (hout : Outcome { b with codes := b.codes.set t rest } g i b' g' next)
    {t' : ThreadId} {code : List (Instr n)} (hne : t' ≠ t) (ht' : b.codes[t']? = some code)
    (h : returns b.live code = true) : returns b'.live code = true := by
  have hmem := List.mem_of_getElem? ht
  refine returns_keep h fun w j rest' hcode hj hup => ?_
  rcases hout.live hup with hlive | ⟨-, rfl, -, -⟩
  · exact hlive
  · exfalso
    have hbase : Base w rest := (hf _ hmem).1
    have hnext : .nextSlice w ∈ code := by
      subst hcode
      rcases hj with rfl | rfl
      · have hrest : rest' = [.nextSlice w] := (hf _ (List.mem_of_getElem? ht')).1
        simp [hrest]
      · exact List.mem_cons_self ..
    rcases hbase with rfl | rfl | hround
    · have hdown := hgu.dismissed _ hmem w rfl
      exact absurd (hup.symm.trans hdown) (by simp)
    · exact hne (ho.thread_unique ht' ht hnext (by simp))
    · obtain ⟨deadline, hasleep⟩ := hdoze _ hmem (by simp [watches_of_round hround])
      cases hasleep

/-- While the watchdog sleeps, an executor is queued again only by the worker that ran it, which comes back. -/
theorem returns_of_settle (hgu : b.Guarded) (hst : b.Staying) (hsp : b.Spent) (hdoze : b.Dozing) (hf : b.Fitted)
    (ho : b.Orderly) {e : Fin n} (ht : b.codes[t]? = some (.settle e :: rest)) : returns b.live rest = true := by
  have hmem := List.mem_of_getElem? ht
  obtain ⟨w, rfl | ⟨base, hbase, rfl⟩⟩ : Left rest := (hf _ hmem).1
  · refine beq_iff_eq.2 ((hgu.engaged t _ w ht ⟨by simp, by simp, by simp⟩).resolve_right fun hpos => ?_)
    obtain ⟨x, hx, hab⟩ := List.countP_pos_iff.1 hpos
    obtain rfl := eq_of_abandons hab
    obtain ⟨code, hcode, hx⟩ := List.mem_flatten.1 hx
    obtain ⟨front, left, rfl⟩ := List.append_of_mem hx
    rcases takes_of_staying hst hf hcode with rfl | ⟨round, hround, rfl⟩
    · obtain ⟨t', ht'⟩ := List.getElem?_of_mem hcode
      obtain rfl := ho.thread_unique (w := w) ht ht' (by simp) (by simp)
      rw [ht] at ht'
      simpa using congrArg List.length (Option.some.inj ht')
    · obtain ⟨deadline, hasleep⟩ := hdoze _ hcode (by simp [watches_of_round hround])
      have htake : .takeAbandoned w ∈ [Instr.watching (n := n) deadline, .inspect, .watch] := hasleep ▸ by simp
      simp at htake
  · exfalso
    rcases hbase with rfl | rfl | hround
    · exact hst _ hmem w rfl
    · rcases hsp _ hmem w (by simp) (by simp) with hcode | hcode <;> cases hcode
    · obtain ⟨deadline, hasleep⟩ := hdoze _ hmem (by simp [watches_of_round hround])
      cases hasleep

/-- A worker that takes an executor leaves fewer of them in the run queue. -/
theorem Takes.queue_lt {e : Fin n} (h : b.Takes b' (some e)) : b'.queue.length < b.queue.length := by
  cases h with
  | found skipped head rest faults hq hs hf hh =>
    rw [hq]
    show rest.length < _
    simp only [List.length_append, List.length_cons]
    omega

/-- A worker that finds nobody leaves the run queue empty. -/
theorem Takes.queue_nil (h : b.Takes b' none) : b'.queue = [] := by
  cases h
  rfl

/-- The thread of a worker that is hired is next to look for an executor. -/
theorem returning_hired (hlen : b.live.length = b.current.length) {current : List (Option (Fin n))}
    {codes : List (List (Instr n))} (hh : b.Hires { b with current, live := b.live ++ [true], codes }) :
    0 < (codes.drop b.codes.length).countP (returns (b.live ++ [true])) := by
  obtain ⟨m, hcur, hlive⟩ := hh.grow
  have hcur : current = b.current ++ List.replicate m none := hcur
  have hlive : b.live ++ [true] = b.live ++ List.replicate m true := hlive
  have hm : m = 1 := by simpa [eq_comm] using congrArg List.length hlive
  have hthread := hh.threads (Nat.le_refl _) (by simp [hcur, hm])
  refine List.countP_pos_iff.2 ⟨_, hthread, ?_⟩
  simp [returns, ← hlen]

end Books

namespace Instr

variable {b b' : Books n} {g g' : Gear n} {i : Instr n} {rest next : List (Instr n)}

/-- Carrying out an instruction takes no worker from those who come for the executors that are queued, where a worker that
ran an executor comes back, unless it empties the run queue or puts an executor into it. -/
theorem Outcome.covers (ho : Outcome b g i b' g' next) (hfits : i.Fits rest) (hlen : b.live.length = b.current.length)
    (hidle : ∀ w, i = .awaitWork w → 0 < g.idle) (hback : ∀ e, i = .settle e → returns b.live rest = true) :
    b'.queue.length + g.idle + (returns b.live (i :: rest)).toNat ≤
        b.queue.length + g'.idle + (returns b'.live (next ++ rest)).toNat +
          (b'.codes.drop b.codes.length).countP (returns b'.live) ∨
      b'.queue = [] ∨
      (∃ e, i = .enqueue e) ∧ b'.queue.length = b.queue.length + 1 ∧ b'.live = b.live ∧ g'.idle = g.idle ∧
        (0 < g.idle ∨ g.workerCount = g.slots.length ∨ none ∉ g.slots) := by
  have hkeep : b'.queue.length ≤ b.queue.length → g'.idle = g.idle →
      (returns b.live (i :: rest) = true → returns b'.live (next ++ rest) = true) →
      b'.queue.length + g.idle + (returns b.live (i :: rest)).toNat ≤
        b.queue.length + g'.idle + (returns b'.live (next ++ rest)).toNat +
          (b'.codes.drop b.codes.length).countP (returns b'.live) := by
    intro hq hidle hr
    have hle := Bool.toNat_le_toNat hr
    omega
  cases ho
  case push e current codes runtime arrival hph hstage hh hr hmany =>
    exact Or.inr (Or.inr ⟨⟨e, rfl⟩, Books.length_insert _ b.queue, rfl, rfl, hmany⟩)
  case hire e slot current codes runtime arrival hph hstage hh hr hslot =>
    have hpos := Books.returning_hired hlen hh
    refine Or.inl ?_
    show (Entry.insert _ b.queue).length + g.idle + 0 ≤
      b.queue.length + g.idle + _ + (codes.drop b.codes.length).countP (returns (b.live ++ [true]))
    rw [Books.length_insert]
    omega
  case take w e idle hi htake =>
    have hlt := htake.queue_lt
    rcases hi with ⟨rfl, rfl⟩ | ⟨rfl, rfl⟩
    · refine Or.inl ?_
      show _ + g.idle + 1 ≤ _ + g.idle + _ + _
      omega
    · have hpos := hidle w rfl
      refine Or.inl ?_
      show _ + g.idle + 0 ≤ _ + (g.idle - 1) + _ + _
      omega
  case close w idle hph hi htake => exact Or.inr (Or.inl htake.queue_nil)
  case await w idle hph hi htake => exact Or.inr (Or.inl htake.queue_nil)
  case dequeue e => exact Or.inl (hkeep (List.length_filter_le ..) rfl fun hr => by cases hr)
  case requeue e runtime faults arrival hstage hph hf hr =>
    refine Or.inl ?_
    have hreturns : returns b.live ([] ++ rest) = true := hback e rfl
    show (Entry.insert _ b.queue).length + g.idle + 0 ≤
      b.queue.length + g.idle + (returns b.live ([] ++ rest)).toNat + _
    rw [Books.length_insert, hreturns, Bool.toNat_true]
    omega
  case startWorker w =>
    obtain rfl : rest = [.nextSlice w] := hfits
    exact Or.inl (hkeep (Nat.le_refl _) rfl fun hr => hr)
  case round w hup => exact Or.inl (hkeep (Nat.le_refl _) rfl fun _ => rfl)
  case dismiss w hdown => exact Or.inl (hkeep (Nat.le_refl _) rfl fun hr => by simp [returns, hdown] at hr)
  case stray w hnone => exact Or.inl (hkeep (Nat.le_refl _) rfl fun hr => by simp [returns, hnone] at hr)
  case withdraw e =>
    refine Or.inl (hkeep ?_ rfl fun hr => by cases hr)
    split <;> exact Nat.le_refl _
  all_goals exact Or.inl (hkeep (Nat.le_refl _) rfl fun hr => by cases hr)

end Instr

namespace Books

variable {b b' : Books n} {g g' : Gear n} {t : ThreadId} {i : Instr n} {rest next : List (Instr n)}

/-- Everything that has to do with the workers that come for the executors that are queued. -/
structure Covering (b : Books n) (g : Gear n) : Prop where
  guarded : b.Guarded
  staying : b.Staying
  spent : b.Spent
  idles : b.Idles g

/-- While the watchdog sleeps, a worker comes for every executor that is queued, unless a submit needs one that others
need too. -/
theorem Covered.step (h : b.Covered g) (hc : b.Covering g) (hdoze : b.Dozing) (hs : Seated b.live b.leaving g)
    (hf : b.Fitted) (ho : b.Orderly) (ht : b.codes[t]? = some (i :: rest))
    (he : i.Effect { b with codes := b.codes.set t rest } b' next)
    (hout : Outcome { b with codes := b.codes.set t rest } g i b' g' next)
    (hcome : ∀ e, i = .enqueue e → b'.queue.length ≤ g'.idle ∨ b.queue.length < g.idle + b.returning ∨
      g.idle = 0 ∧ none ∈ g.slots) :
    ({ b' with codes := b'.codes.set t (next ++ rest) } : Books n).Covered g' := by
  have hret := returning_step ht he fun t' code hne ht' hr =>
    returns_others hc.guarded hdoze hf ho ht hout hne ht' hr
  have hidle : ∀ w, i = .awaitWork w → 0 < g.idle := by
    rintro w rfl
    rw [hc.idles.count]
    exact List.countP_pos_iff.2 ⟨_, mem_todo ht, rfl⟩
  have hback : ∀ e, i = .settle e → returns b.live rest = true := by
    rintro e rfl
    exact returns_of_settle hc.guarded hc.staying hc.spent hdoze hf ho ht
  have hcovers := hout.covers (hf _ (List.mem_of_getElem? ht)).1 ho.lengths hidle hback
  rw [List.length_set] at hcovers
  have h : b.queue.length ≤ g.idle + b.returning := h
  show b'.queue.length ≤ g'.idle + _
  rcases hcovers with hle | hnil | ⟨⟨e, rfl⟩, hq, hlive, hidle', hmany⟩
  · have hle : b'.queue.length + g.idle + (returns b.live (i :: rest)).toNat ≤ b.queue.length + g'.idle + _ + _ := hle
    omega
  · rw [hnil]
    exact Nat.zero_le _
  · have hq : b'.queue.length = b.queue.length + 1 := hq
    rcases hcome e rfl with hle | hlt | ⟨hz, hslot⟩
    · exact Nat.le_trans hle (Nat.le_add_right ..)
    · have hret : b.returning + _ + _ ≤ _ + 0 := hret
      omega
    · exfalso
      rcases hmany with hpos | hfull | hnone
      · omega
      · exact hs.taken_of_full hfull hslot
      · exact hnone hslot

theorem Covered.goes (h : b.Covered g) (hc : b.Covering g) (hdoze : b.Dozing) (hs : Seated b.live b.leaving g)
    (hf : b.Fitted) (ho : b.Orderly) {a : Action n} (hg : Goes b g a b' g')
    (hcome : ∀ t e rest, a = .step t → b.codes[t]? = some (.enqueue e :: rest) →
      b'.queue.length ≤ g'.idle ∨ b.queue.length < g.idle + b.returning ∨ g.idle = 0 ∧ none ∈ g.slots) :
    b'.Covered g' := by
  have h' : b.queue.length ≤ g.idle + b.returning := h
  cases hg with
  | rest => exact h
  | advance => exact h
  | arrive c =>
    show b.queue.length ≤ g.idle + (b.codes ++ _).countP _
    rw [List.countP_append]
    exact Nat.le_trans h' (Nat.add_le_add_left (Nat.le_add_right ..) _)
  | perform t w e rest next a ht ha =>
    have hset := countP_set_add (returns b.live) ht (next ++ rest)
    have hset : (b.codes.set t (next ++ rest)).countP (returns b.live) + 0 = b.returning + _ := hset
    show b.queue.length ≤ g.idle + (b.codes.set t (next ++ rest)).countP (returns b.live)
    omega
  | step t i rest next b' g' ht hw he hl hd =>
    refine h.step hc hdoze hs hf ho ht he (outcome hw he hl hd) ?_
    rintro e rfl
    exact hcome t e rest rfl ht
  | tear t e o rest ht hfail =>
    have hset := countP_set_add (returns b.live) ht []
    have hset : (b.codes.set t []).countP (returns b.live) + 0 = b.returning + _ := hset
    show b.queue.length ≤ g.idle + (b.codes.set t []).countP (returns b.live)
    omega

theorem Covering.goes (h : b.Covering g) (hf : b.Fitted) (ho : b.Orderly) {a : Action n} (hg : Goes b g a b' g')
    (hin : b.InTime a) : b'.Covering g' where
  guarded := h.guarded.goes hf ho hg hin
  staying := Staying.goes h.staying h.guarded.dismissed hg
  spent := h.spent.goes hf ho hg
  idles := h.idles.goes hf hg

end Books

namespace Pool

variable {s : Pool n}

/-- How many workers are on their way to the run queue: they start or are between two slices, and are not retired. -/
def returning (s : Pool n) : Nat := s.threads.countP fun thread => returns (s.workers.map (·.live)) thread.code

theorem returning_eq (s : Pool n) : s.returning = s.books.returning := by
  simp [returning, Books.returning, books, List.countP_map, Function.comp_def]

/-- Whether a submit that comes to the run queue finds the scheduler not busy, or finds or starts a worker that comes for
its executor. -/
def attends (s : Pool n) : Action n → Bool
  | .step t =>
    match s.code t with
    | .enqueue _ :: _ =>
      !s.isBusy || decide (s.queue.length < s.idle + s.returning) || s.idle == 0 && s.slots.any (·.isNone)
    | _ => true
  | _ => true

theorem isBusy_eq_false : s.isBusy = false ↔ s.queue.length ≤ s.idle := by
  simp [isBusy]

/-- What an invariant of the waits comes to, as long as the watchdog comes in time. -/
structure Attended (s : Pool n) : Prop extends s.Manning, s.Vigilant where
  covering : s.books.Covering s.gear

theorem create_attended (config : SchedulerConfig) (context : Metrics.Context) (log : LogFilter)
    (hosts : Vector Host n) : (create config context log hosts).Attended := by
  have hb := create_bookkept config context log hosts
  refine ⟨hb.toManning, create_vigilant config context log hosts, ?_, ?_, ?_, hb.idles⟩ <;> rw [books_create]
  · exact .start
  · simp [Books.Staying, Books.start]
  · simp [Books.Spent, Books.start]

theorem Attended.act (h : s.Attended) (ho : s.books.Orderly) {a : Action n} (hin : s.inTime a = true) :
    (s.act a).Attended :=
  ⟨h.toManning.act ho a, h.toVigilant.act h.fitted a, h.covering.goes h.fitted ho (act_goes s a) (books_inTime hin)⟩

theorem Vigilant.dozing (h : s.Vigilant) {t : ThreadId} (ht : t ∈ s.watchWaiters) : s.books.Dozing := by
  intro code hcode hwatch
  obtain ⟨t', ht'⟩ := List.getElem?_of_mem hcode
  have hcode' : s.code t' = code := by rw [code_eq, ht']; rfl
  obtain ⟨-, deadline, hasleep⟩ := h.asleep t ht
  have hdog := h.only t (by simp [hasleep])
  have hdog' := h.only t' (by rw [hcode']; exact hwatch)
  obtain rfl : t = t' := Option.some.inj (hdog.symm.trans hdog')
  exact ⟨deadline, hcode'.symm.trans hasleep⟩

/-- While the watchdog sleeps, a worker comes for every executor that is queued. -/
theorem Attended.covered (h : s.Attended) (ho : s.books.Orderly) {a : Action n} {t : ThreadId}
    (hc : s.books.Covered s.gear) (ht : t ∈ s.watchWaiters) (ht' : t ∈ (s.act a).watchWaiters)
    (hattend : s.attends a = true) : (s.act a).books.Covered (s.act a).gear := by
  refine hc.goes h.covering (h.toVigilant.dozing ht) h.seated h.fitted ho (act_goes s a) ?_
  rintro t' e rest rfl hcodes
  have hcode : s.code t' = .enqueue e :: rest := by
    rw [code_eq, hcodes]
    rfl
  show (s.step t').queue.length ≤ (s.step t').idle ∨ s.queue.length < s.idle + s.books.returning ∨
    s.idle = 0 ∧ none ∈ s.slots
  rw [← returning_eq]
  simp only [attends, hcode, Bool.or_eq_true, Bool.and_eq_true, Bool.not_eq_true', decide_eq_true_eq, beq_iff_eq,
    List.any_eq_true, Option.isNone_iff_eq_none, exists_eq_right] at hattend
  rcases hattend with (hquiet | hlt) | hslot
  · exact Or.inl (isBusy_eq_false.1 (h.toVigilant.wakes hcode hquiet ht ht'))
  · exact Or.inr (Or.inl hlt)
  · exact Or.inr (Or.inr hslot)

/-! ## Whether there is a watchdog -/

end Pool

namespace Instr

variable {b b' : Books n} {g g' : Gear n} {i : Instr n} {next : List (Instr n)}

theorem Outcome.host (ho : Outcome b g i b' g' next) : g'.host = g.host := by
  cases ho <;> rfl

/-- Where nobody is queued or runs, nobody comes to do so but by a submit. -/
theorem Outcome.nobody (ho : Outcome b g i b' g' next) (henter : ∀ e, i ≠ .enqueue e) (hsettle : ∀ e, i ≠ .settle e)
    (hq : b.queue = []) (hr : b.running = []) : b'.queue = [] ∧ b'.running = [] := by
  cases ho
  case take htake =>
    have hlt := htake.queue_lt
    rw [hq] at hlt
    cases hlt
  case close htake => cases htake; exact ⟨rfl, hr⟩
  case await htake => cases htake; exact ⟨rfl, hr⟩
  case dequeue e => exact ⟨by simp [hq], hr⟩
  case withdraw e =>
    simp only [Books.mark]
    split <;> exact ⟨hq, hr⟩
  all_goals first | exact ⟨hq, hr⟩ | exact absurd rfl (henter _) | exact absurd rfl (hsettle _)

end Instr

namespace Books

variable {b b' : Books n} {g g' : Gear n} {a : Action n}

theorem host_goes (hg : Goes b g a b' g') : g'.host = g.host := by
  cases hg with
  | step t i rest next b' g' ht hw he hl hd => exact (outcome hw he hl hd).host
  | _ => rfl

/-- A watchdog goes on with its rounds, unless it ends by itself or is torn down by an observer that fails. -/
theorem watches_goes (hf : b.Fitted) (hg : Goes b g a b' g') {t : ThreadId} {code : List (Instr n)}
    (ht : b.codes[t]? = some code) (hwatch : code.any watches = true) :
    (∃ code', b'.codes[t]? = some code' ∧ code'.any watches = true) ∨
      a = .step t ∧ (code = [.watch] ∧ b'.codes[t]? = some [] ∨ ∃ e, (g.host e).sink = .host true) := by
  cases hg with
  | rest => exact Or.inl ⟨code, ht, hwatch⟩
  | advance => exact Or.inl ⟨code, ht, hwatch⟩
  | arrive c =>
    refine Or.inl ⟨code, ?_, hwatch⟩
    show (b.codes ++ _)[t]? = _
    rw [List.getElem?_append_left (List.getElem?_eq_some_iff.1 ht).1, ht]
  | perform t' w e rest next a ht' ha =>
    by_cases hne : t' = t
    · subst hne
      rw [ht] at ht'
      obtain rfl := Option.some.inj ht'
      obtain ⟨w', a', rfl⟩ : ∃ w' a', rest = [.closeSlice w' e a', .nextSlice w'] := by
        obtain ⟨a', hrest⟩ := (hf _ (List.mem_of_getElem? ht)).1
        exact ⟨w, a', hrest⟩
      simp at hwatch
    · exact Or.inl ⟨code, by rw [List.getElem?_set_ne hne, ht], hwatch⟩
  | step t' i rest next b' g' ht' hw he hl hd =>
    by_cases hne : t = t'
    · subst hne
      rw [ht] at ht'
      obtain rfl := Option.some.inj ht'
      by_cases hrest : (next ++ rest).any watches = true
      · exact Or.inl ⟨_, codes_self ht he, hrest⟩
      · have hfits : i.Fits rest := (hf _ (List.mem_of_getElem? ht)).1
        rw [List.any_append, Bool.or_eq_true, not_or] at hrest
        have hi : i.watches = true := by
          rw [List.any_cons, Bool.or_eq_true] at hwatch
          exact hwatch.resolve_right hrest.2
        cases i <;> simp only [watches, Bool.false_eq_true] at hi
        case watch =>
          obtain rfl : rest = [] := hfits
          rcases hl with rfl | rfl
          · exact Or.inr ⟨rfl, Or.inl ⟨rfl, codes_self ht he⟩⟩
          · simp at hrest
        case beginWatch =>
          obtain ⟨deadline, rfl⟩ := hl
          simp at hrest
    · exact Or.inl ⟨code, codes_other ht' he hne ht, hwatch⟩
  | tear t' e o rest ht' hfail =>
    by_cases hne : t' = t
    · subst hne
      exact Or.inr ⟨rfl, Or.inr ⟨e, hfail⟩⟩
    · exact Or.inl ⟨code, by rw [List.getElem?_set_ne hne, ht], hwatch⟩

end Books

namespace Pool

variable {s : Pool n}

/-- A submit that comes to the run queue starts a watchdog unless one is alive. -/
theorem enqueue_watchdog (s : Pool n) (e : Fin n) {s' : Pool n} (h : s.enqueue e = .ok s') :
    s' = s ∨ s.watchdogAlive = true ∧ s'.watchdog = s.watchdog ∨
      s'.watchdog = some s.threads.length ∧ s'.code s.threads.length = [.startWatchdog, .watch] := by
  rcases s.enqueue_vigil e h with rfl | ⟨hcodes, hdog, -⟩
  · exact Or.inl rfl
  · refine Or.inr ?_
    rcases s.ensureRunning_threads with ⟨halive, hv, -⟩ | ⟨-, hv, workers, hthreads, -⟩
    · exact Or.inl ⟨halive, hdog.trans (congrArg Prod.fst hv)⟩
    · refine Or.inr ⟨hdog.trans (congrArg Prod.fst hv), ?_⟩
      rw [code_eq, hcodes, ← code_eq]
      simp [code, hthreads]

theorem enqueue_step_watchdog (s : Pool n) {t : ThreadId} {e : Fin n} {rest : List (Instr n)}
    (hcode : s.code t = .enqueue e :: rest) (code : List (Instr n)) :
    let s' := ((s.setCode t rest).exec t (.enqueue e)).1.setCode t code
    s'.watchdog = s.watchdog ∧ (s.watchdog = none → s'.queue = s.queue ∧ s'.running = s.running) ∨
      ∃ t', s'.watchdog = some t' ∧ s'.code t' = [.startWatchdog, .watch] := by
  simp only [exec]
  split
  · split
    · rename_i s' hs'
      rcases (s.setCode t rest).enqueue_watchdog e hs' with rfl | ⟨halive, hsame⟩ | ⟨hnew, hbegins⟩
      · exact Or.inl ⟨rfl, fun _ => ⟨rfl, rfl⟩⟩
      · refine Or.inl ⟨hsame, fun hnone => ?_⟩
        have hnone : (s.setCode t rest).watchdog = none := hnone
        simp [watchdogAlive, hnone] at halive
      · refine Or.inr ⟨_, hnew, ?_⟩
        have hlt := (List.getElem?_eq_some_iff.1 (codes_of_code hcode)).1
        have hne : (s.setCode t rest).threads.length ≠ t := by
          simp only [books, List.length_map] at hlt
          simp only [setCode, List.length_modify]
          omega
        rw [code_setCode_ne _ hne, code_eq, books_setAnswer, books_emit, ← code_eq]
        exact hbegins
    · exact Or.inl ⟨rfl, fun _ => ⟨rfl, rfl⟩⟩
  · exact Or.inl ⟨rfl, fun _ => ⟨rfl, rfl⟩⟩

/-- The watchdog is another one after an action only when a submit starts it. -/
theorem act_watchdog (s : Pool n) (a : Action n) :
    (s.act a).watchdog = s.watchdog ∧
        (s.watchdog = none → (∃ t e rest, a = .step t ∧ s.code t = .enqueue e :: rest) →
          (s.act a).queue = s.queue ∧ (s.act a).running = s.running) ∨
      ∃ t, (s.act a).watchdog = some t ∧ (s.act a).code t = [.startWatchdog, .watch] := by
  cases a with
  | step t =>
    cases hcode : s.code t with
    | nil =>
      rw [show s.act (.step t) = s from step_of_nil hcode]
      exact Or.inl ⟨rfl, fun _ _ => ⟨rfl, rfl⟩⟩
    | cons i rest =>
      cases hwait : s.mustWait t i with
      | true =>
        rw [show s.act (.step t) = s from step_of_mustWait hcode hwait]
        exact Or.inl ⟨rfl, fun _ _ => ⟨rfl, rfl⟩⟩
      | false =>
        obtain ⟨code, hstep, -⟩ := step_code hcode hwait
        rw [show s.act (.step t) = _ from hstep]
        by_cases henter : ∃ e, i = .enqueue e
        · obtain ⟨e, rfl⟩ := henter
          exact (s.enqueue_step_watchdog hcode code).imp_left fun h => ⟨h.1, fun hnone _ => h.2 hnone⟩
        · refine Or.inl ⟨(s.setCode t rest).exec_watchdog t fun e hi => henter ⟨e, hi⟩, fun _ hsubmit => ?_⟩
          obtain ⟨t', e, rest', ht, hc⟩ := hsubmit
          obtain rfl := Action.step.inj ht
          rw [hcode] at hc
          exact absurd ⟨e, (List.cons.inj hc).1⟩ henter
  | work t a => exact Or.inl ⟨congrArg Prod.fst (s.vigil_work t a), fun _ ⟨_, _, _, h, _⟩ => by cases h⟩
  | _ => exact Or.inl ⟨rfl, fun _ ⟨_, _, _, h, _⟩ => by cases h⟩

/-- There is a watchdog for those who are queued or run, unless the scheduler is closed or an observer of the host has torn
it down. -/
structure Warded (s : Pool n) : Prop where
  needed : s.watchdog = none → s.queue = [] ∧ s.running = []
  alive : ∀ t, s.watchdog = some t →
    (s.code t).any watches = true ∨ s.phase = .closed ∨ ∃ e, (s.executor e).host.sink = .host true

theorem create_warded (config : SchedulerConfig) (context : Metrics.Context) (log : LogFilter)
    (hosts : Vector Host n) : (create config context log hosts).Warded := by
  constructor <;> simp [create]

theorem Warded.act_needed (h : s.Warded) (hp : ∀ e, (s.books.account e).Placed) (a : Action n)
    (hnone : (s.act a).watchdog = none) : (s.act a).queue = [] ∧ (s.act a).running = [] := by
  rcases s.act_watchdog a with ⟨hsame, hsubmit⟩ | ⟨t, hnew, -⟩
  · have hnone' := hsame.symm.trans hnone
    obtain ⟨hq, hr⟩ := h.needed hnone'
    by_cases henter : ∃ t e rest, a = .step t ∧ s.code t = .enqueue e :: rest
    · obtain ⟨hq', hr'⟩ := hsubmit hnone' henter
      exact ⟨hq'.trans hq, hr'.trans hr⟩
    · have hg := s.act_goes a
      show (s.act a).books.queue = [] ∧ (s.act a).books.running = []
      generalize (s.act a).books = b' at hg ⊢
      generalize (s.act a).gear = g' at hg
      cases hg with
      | step t i rest next b' g' ht hw he hl hd =>
        refine (outcome hw he hl hd).nobody ?_ ?_ hq hr
        · rintro e rfl
          exact henter ⟨t, e, rest, rfl, by rw [code_eq, ht]; rfl⟩
        · rintro e rfl
          have hrun : e ∈ s.running := Books.mem_running_of_stays (hp e) (Books.mem_todo ht) (by simp)
          rw [hr] at hrun
          cases hrun
      | _ => exact ⟨hq, hr⟩
  · rw [hnew] at hnone
    cases hnone

theorem Warded.act_alive (h : s.Warded) (hf : s.books.Fitted) (a : Action n) {t : ThreadId}
    (hdog : (s.act a).watchdog = some t) : ((s.act a).code t).any watches = true ∨ (s.act a).phase = .closed ∨
      ∃ e, ((s.act a).executor e).host.sink = .host true := by
  have hg := s.act_goes a
  have hfails : (∃ e, (s.executor e).host.sink = .host true) → ∃ e, ((s.act a).executor e).host.sink = .host true := by
    rintro ⟨e, hsink⟩
    have hhost : (s.act a).gear.host = s.gear.host := Books.host_goes hg
    exact ⟨e, (congrArg Host.sink (congrFun hhost e)).trans hsink⟩
  have hclosed : s.phase = .closed → (s.act a).phase = .closed := by
    intro hphase
    have hrank : s.phase.rank ≤ (s.act a).phase.rank := Books.phase_goes hg
    rw [hphase] at hrank
    cases hp : (s.act a).phase <;> rw [hp] at hrank <;> first | rfl | exact absurd hrank (by decide)
  rcases s.act_watchdog a with ⟨hsame, -⟩ | ⟨t', hnew, hbegins⟩
  · rcases h.alive t (hsame.symm.trans hdog) with hwatch | hphase | hsink
    · have ht : s.books.codes[t]? = some (s.code t) := by
        rw [code_eq] at hwatch ⊢
        cases hc : s.books.codes[t]? with
        | none => simp [hc] at hwatch
        | some code => rfl
      rcases Books.watches_goes hf hg ht hwatch with ⟨code, hcode, hwatch⟩ | ⟨rfl, ⟨hcode, hends⟩ | hsink⟩
      · left
        rw [code_eq, hcode]
        exact hwatch
      · refine Or.inr (Or.inl ?_)
        by_contra hopen
        obtain ⟨thread, hthread⟩ := thread_of_code hcode
        have hexec : (s.setCode t []).exec t .watch = (s.setCode t [], some [.beginWatch]) := by
          simp only [exec]
          rw [if_neg]
          exact fun hphase => hopen (hclosed hphase)
        have hafter := (step_thread hcode rfl hexec hthread).1
        rw [code_eq, show (s.step t).books.codes[t]? = some [] from hends] at hafter
        cases hafter
      · exact Or.inr (Or.inr (hfails hsink))
    · exact Or.inr (Or.inl (hclosed hphase))
    · exact Or.inr (Or.inr (hfails hsink))
  · rw [hnew] at hdog
    obtain rfl := Option.some.inj hdog
    rw [hbegins]
    exact Or.inl rfl

theorem Warded.act (h : s.Warded) (hf : s.books.Fitted) (hp : ∀ e, (s.books.account e).Placed) (a : Action n) :
    (s.act a).Warded :=
  ⟨h.act_needed hp a, fun _ => h.act_alive hf a⟩

/-- There is a watchdog when somebody is queued, as long as the scheduler is not closed. -/
theorem Warded.exists_watchdog (h : s.Warded) (hqueue : s.queue ≠ []) (hopen : s.phase ≠ .closed)
    (hcalm : ∀ e, (s.executor e).host.sink ≠ .host true) :
    ∃ t, s.watchdog = some t ∧ (s.code t).any watches = true := by
  obtain ⟨t, ht⟩ := Option.ne_none_iff_exists'.1 fun hnone => hqueue (h.needed hnone).1
  refine ⟨t, ht, (h.alive t ht).resolve_right ?_⟩
  rintro (hphase | ⟨e, hsink⟩)
  · exact hopen hphase
  · exact hcalm e hsink

/-! ## How long the watchdog waits -/

/-- When a thread that waits as a watchdog wakes up by itself. -/
def due (s : Pool n) (t : ThreadId) : Option Instant :=
  match s.code t with
  | .watching deadline :: _ => some deadline
  | _ => none

/-- The watchdog begins to wait, for a shorter time when the scheduler is busy. -/
theorem step_beginWatch {t : ThreadId} (hcode : s.code t = [.beginWatch]) :
    (s.step t).due t = some (s.clock + (if s.isBusy then s.scaledPeriod else s.config.monitorInterval).nanos) ∧
      (s.step t).watchWaiters = s.watchWaiters ++ [t] ∧ (s.step t).isBusy = s.isBusy := by
  obtain ⟨thread, hthread⟩ := thread_of_code hcode
  have hafter := (step_thread hcode rfl rfl hthread).1
  refine ⟨by rw [due, hafter]; rfl, ?_, ?_⟩ <;> rw [step_eq hcode rfl rfl] <;> rfl

/-- While the watchdog sleeps, it keeps what it has to do, and a worker still comes for every executor that is queued. -/
theorem Attended.sleeps (h : s.Attended) (ho : s.books.Orderly) (hp : ∀ e, (s.books.account e).Placed) {t : ThreadId}
    (ht : t ∈ s.watchWaiters) {actions : List (Action n)} (hin : s.Along (fun s a => s.inTime a) actions)
    (hasleep : s.Along (fun s a => t ∈ (s.act a).watchWaiters) actions)
    (hattend : s.Along (fun s a => s.attends a) actions) :
    (s.run actions).code t = s.code t ∧
      (s.books.Covered s.gear → (s.run actions).books.Covered (s.run actions).gear) := by
  have hend := run_along
    (R := fun r a => r.inTime a = true ∧ t ∈ (r.act a).watchWaiters ∧ r.attends a = true)
    (P := fun r => r.Attended ∧ t ∈ r.watchWaiters ∧ r.code t = s.code t ∧
      (s.books.Covered s.gear → r.books.Covered r.gear))
    (fun r a ho _ h ha => ⟨h.1.act ho ha.1, ha.2.1, (h.1.toVigilant.act_dozes h.2.1 ha.2.1).trans h.2.2.1,
      fun hc => h.1.covered ho (h.2.2.2 hc) h.2.1 ha.2.1 ha.2.2⟩) ho hp ⟨h, ht, rfl, id⟩
    (along_and hin (along_and hasleep hattend))
  exact hend.2.2

/-- In a settled state in which the scheduler is busy there is a watchdog, unless the scheduler is closed or an observer of
the host has torn it down. If it is asleep, it began to wait when the scheduler was busy, and wakes up when the period of
that moment has passed, as long as every submit since then that met the scheduler busy had a worker that came for its
executor. -/
theorem run_cadence (config : SchedulerConfig) (context : Metrics.Context) (log : LogFilter) (hosts : Vector Host n)
    (actions : List (Action n)) (hin : (create config context log hosts).Along (fun s a => s.inTime a) actions)
    (hsettled : ((create config context log hosts).run actions).returning = 0)
    (hbusy : ((create config context log hosts).run actions).isBusy = true) :
    (((create config context log hosts).run actions).phase ≠ .closed →
      (∀ e, (((create config context log hosts).run actions).executor e).host.sink ≠ .host true) →
      ∃ t, ((create config context log hosts).run actions).watchdog = some t ∧
        (((create config context log hosts).run actions).code t).any watches = true) ∧
    ∀ t ∈ ((create config context log hosts).run actions).watchWaiters,
      ∃ before more, (create config context log hosts).LastWait t actions before more ∧
        ((((create config context log hosts).run before).step t).Along (fun s a => s.attends a) more →
          ((create config context log hosts).run before).isBusy = true ∧
          ((create config context log hosts).run actions).due t =
            some (((create config context log hosts).run before).clock +
              ((create config context log hosts).run before).scaledPeriod.nanos)) := by
  constructor
  · have hwarded := run_created (R := fun _ _ => True) (P := fun s => s.Manning ∧ s.Warded)
      (fun s a ho hp h _ => ⟨h.1.act ho a, h.2.act h.1.fitted hp a⟩)
      ⟨create_manning config context log hosts, create_warded config context log hosts⟩ (along_true _ actions)
    refine hwarded.2.exists_watchdog fun hnil => ?_
    simp [isBusy, hnil] at hbusy
  intro t ht
  obtain ⟨before, more, hlast⟩ := run_waits config context log hosts actions ht
  refine ⟨before, more, hlast, fun hattend => ?_⟩
  obtain ⟨rfl, hbegins, hasleep⟩ := hlast
  rw [List.append_cons] at hin hsettled hbusy ⊢
  rw [run_append] at hsettled hbusy ⊢
  obtain ⟨hin₁, hin₂⟩ := along_append.1 hin
  have hbegun := run_created (R := fun s a => s.inTime a) (fun s a ho _ h ha => h.act ho ha)
    (create_attended config context log hosts) hin₁
  have ho := run_orderly config context log hosts (before ++ [.step t])
  have hp := run_placed config context log hosts (before ++ [.step t])
  have hstep : (create config context log hosts).run (before ++ [.step t]) =
      ((create config context log hosts).run before).step t := by
    rw [run_append]
    rfl
  rw [hstep] at hin₂ hbegun ho hp hsettled hbusy ⊢
  obtain ⟨hdue, hwaits, hsame⟩ := step_beginWatch hbegins
  generalize (create config context log hosts).run before = s at *
  obtain ⟨hcode, hcovered⟩ := hbegun.sleeps ho hp (by simp [hwaits]) hin₂ hasleep hattend
  have hwas : s.isBusy = true := by
    by_contra hquiet
    have hle : ((s.step t).run more).queue.length ≤ ((s.step t).run more).idle + ((s.step t).run more).books.returning :=
      hcovered (Nat.le_trans (isBusy_eq_false.1 (hsame.trans (Bool.not_eq_true _ ▸ hquiet))) (Nat.le_add_right ..))
    rw [← returning_eq, hsettled] at hle
    exact absurd (isBusy_eq_false.2 hle) (by rw [hbusy]; decide)
  refine ⟨hwas, ?_⟩
  rw [due, hcode]
  exact hdue.trans (by rw [if_pos hwas])

/-- The watchdog begins to wait while an executor waits behind the one that runs, and the worker takes the next one. -/
def requeuedBusy : List (Action 2) :=
  bothSubmitted ++ paces 1 3 ++ .work 2 (.call (.submit first)) :: paces 2 1 ++ .work 2 (.finish .ok) :: paces 2 7

theorem cadence_requeuedBusy :
    (crew 1).Along (fun s a => s.inTime a) requeuedBusy ∧ ((crew 1).run requeuedBusy).returning = 0 ∧
      ((crew 1).run requeuedBusy).isBusy = true ∧ ((crew 1).run requeuedBusy).watchWaiters = [1] ∧
      ∃ before more, (crew 1).LastWait 1 requeuedBusy before more ∧
        ((((crew 1).run before).step 1).Along (fun s a => s.attends a) more →
          ((crew 1).run before).isBusy = true ∧ ((crew 1).run requeuedBusy).due 1 =
            some (((crew 1).run before).clock + ((crew 1).run before).scaledPeriod.nanos)) := by
  have hin : (crew 1).Along (fun s a => s.inTime a) requeuedBusy := by decide +kernel
  have hsettled : ((crew 1).run requeuedBusy).returning = 0 := by decide +kernel
  have hbusy : ((crew 1).run requeuedBusy).isBusy = true := by decide +kernel
  have hwaits : ((crew 1).run requeuedBusy).watchWaiters = [1] := by decide +kernel
  have hcadence := (run_cadence { workerCount := 1 } _ _ _ requeuedBusy hin hsettled hbusy).2 1
  exact ⟨hin, hsettled, hbusy, hwaits, hcadence (hwaits ▸ List.mem_singleton_self 1)⟩

/-- The work submits its executor again, and the watchdog, thread 1, is about to wait while nobody is queued. -/
def quietWait : List (Action 2) :=
  .call (.submit first) :: paces 0 2 ++ paces 2 10 ++ .work 2 (.call (.submit first)) :: paces 2 1 ++ paces 1 2

/-- Its executor is queued again, the other one is submitted before the worker comes back, and the worker takes one. -/
def busyUnseen : List (Action 2) :=
  paces 1 1 ++ .work 2 (.finish .ok) :: paces 2 5 ++ .call (.submit second) :: paces 3 2 ++ paces 2 2

/-- The work ends just before the watchdog retires the worker, whose replacement takes the other executor. -/
def retiredEnding : List (Action 2) :=
  quietWait ++ paces 1 1 ++ .advance 20000000000 :: paces 1 8 ++ .work 2 (.finish .ok) :: paces 2 2 ++ paces 1 6 ++
    paces 3 3 ++ .call (.submit second) :: paces 4 2 ++ paces 3 1

/-- The watchdog sleeps through a state in which the scheduler is busy, in a wait that began when it was not. The scheduler
was busy for a moment, when a submit came, with the executor that had just been queued again. Or the executor is queued
again by a worker that is retired, and does not come back. -/
theorem asleep_while_busy :
    (((crew 1).run quietWait).isBusy = false ∧
      ((crew 1).run quietWait).clock + ((crew 1).run quietWait).scaledPeriod.nanos = 50000000 ∧
      ((crew 1).run (quietWait ++ busyUnseen)).phase = .running ∧
      ((crew 1).run (quietWait ++ busyUnseen)).returning = 0 ∧ ((crew 1).run (quietWait ++ busyUnseen)).isBusy = true ∧
      ((crew 1).run (quietWait ++ busyUnseen)).watchWaiters = [1] ∧
      ((crew 1).run (quietWait ++ busyUnseen)).due 1 = some 100000000) ∧
    ((crew 1).run retiredEnding).isBusy = false ∧
      ((crew 1).run retiredEnding).clock + ((crew 1).run retiredEnding).scaledPeriod.nanos = 20025000000 ∧
      ((crew 1).run (retiredEnding ++ paces 1 1)).Along (fun s a => s.attends a) (paces 2 5) ∧
      ((crew 1).run (retiredEnding ++ paces 1 1 ++ paces 2 5)).phase = .running ∧
      ((crew 1).run (retiredEnding ++ paces 1 1 ++ paces 2 5)).returning = 0 ∧
      ((crew 1).run (retiredEnding ++ paces 1 1 ++ paces 2 5)).isBusy = true ∧
      ((crew 1).run (retiredEnding ++ paces 1 1 ++ paces 2 5)).watchWaiters = [1] ∧
      ((crew 1).run (retiredEnding ++ paces 1 1 ++ paces 2 5)).due 1 = some 20100000000 := by
  decide +kernel

end Pool

end FairShare.Scheduler
