import FairShare.Proofs.Aftermath
import FairShare.Proofs.Containment
import FairShare.Proofs.Minutes
import FairShare.Proofs.Outset

/-!
# Reports on workers

A check that interrupts a worker decides next whether that is reported, and only after that, if at all, abandons the worker.
It is reported unless the last report of the worker was begun too recently, and a check that makes no report does not change
when that was. One watchdog makes all the reports, so one is written before the next is begun; the moment that counts is the
one at which a report is begun, before the computer is asked what it is doing. It is asked once for each report, and whether
it fails to say so or not, the report is logged.
-/

namespace FairShare.Scheduler

variable {n : Nat}

open Instr

/-- A report that was begun. -/
structure Draft (n : Nat) where
  /-- The worker that is reported. -/
  worker : WorkerId
  /-- The executor that ran past its budget there. -/
  executor : Fin n
  /-- How far it did. -/
  overrun : Duration
  /-- The name of the worker's thread. -/
  thread : String
  /-- When the report was begun. -/
  begun : Instant
  deriving DecidableEq

/-- A report that was written. -/
structure Report (n : Nat) extends Draft n where
  /-- When it was written. -/
  written : Instant
  deriving DecidableEq

/-- Something that happens to a report. -/
inductive Filing (n : Nat) where
  /-- It is begun. -/
  | begun (draft : Draft n)
  /-- It is written. -/
  | written (executor : Fin n) (overrun : Duration) (thread : String) (now : Instant)
  deriving DecidableEq

namespace Report

/-- What happens to a report. -/
def filings (r : Report n) : List (Filing n) :=
  [.begun r.toDraft, .written r.executor r.overrun r.thread r.written]

/-- What is told of a report. -/
def events (r : Report n) (host : Host) : List (Event n) := host.reportEvents r.executor r.overrun r.thread

end Report

/-- Whether an instruction writes a report. -/
def Instr.writes : Instr n → Bool
  | .writeReport .. => true
  | _ => false

namespace Pool

/-- What an action does to a report. -/
def filing? (s : Pool n) (a : Action n) : Option (Filing n) :=
  match s.head? a with
  | some (.report w e overrun) =>
    match (s.beginReport w e overrun).2 with
    | [.writeReport e overrun thread] => some (.begun ⟨w, e, overrun, thread, s.clock⟩)
    | _ => none
  | some (.writeReport e overrun thread) => some (.written e overrun thread s.clock)
  | _ => none

/-- Whether no time passes while somebody has a report to write. -/
def writesAtOnce (s : Pool n) : Action n → Bool
  | .advance _ => s.threads.all fun thread => thread.code.all (!·.writes)
  | _ => true

/-- What some actions do to reports. -/
def filings (s : Pool n) : List (Action n) → List (Filing n)
  | [] => []
  | a :: actions => (s.filing? a).toList ++ (s.act a).filings actions

theorem filings_append (s : Pool n) (actions more : List (Action n)) :
    s.filings (actions ++ more) = s.filings actions ++ (s.run actions).filings more := by
  induction actions generalizing s with
  | nil => rfl
  | cons a actions ih =>
    rw [List.cons_append, filings, ih, filings, List.append_assoc]
    rfl

theorem filing?_of_not_reports {s : Pool n} {a : Action n} (h : ∀ i, s.head? a = some i → i.reports = false) :
    s.filing? a = none := by
  unfold filing?
  split
  case h_1 w e overrun hi => cases h _ hi
  case h_2 e overrun thread hi => cases h _ hi
  case h_3 => rfl

end Pool

/-! ## Who reports -/

namespace Instr

variable {b b' : Books n} {g g' : Gear n} {i x : Instr n} {next : List (Instr n)}

/-- A worker about whose report it is decided runs a slice. -/
theorem Outcome.current_of_report (ho : Outcome b g i b' g' next) {w : WorkerId} {e : Fin n} {overrun : Duration}
    (hx : .report w e overrun ∈ next) : b.current[w]? = some (some e) := by
  cases ho
  case reset accounts h hn =>
    rcases List.mem_append.1 hx with hx | hx
    · rcases h _ hx with ⟨o, hi⟩ | ⟨before, after, hi⟩ <;> cases hi
    · simp at hx
  all_goals simp_all

/-- Only a check that compares an overrun with the later steps of escalation interrupts a worker. -/
theorem Deeds.interrupted {deeds : List (Event n)} (h : i.Deeds deeds) {w : WorkerId} (hx : .interrupted w ∈ deeds) :
    ∃ e overrun, i = .press w e overrun := by
  cases i
  case seekWork => rcases h with rfl | ⟨e, rfl⟩ <;> simp at hx
  case awaitWork => rcases h with rfl | ⟨e, rfl⟩ <;> simp at hx
  case resetTimer => obtain ⟨elapsed, rfl⟩ := h; simp at hx
  case retire => rcases h with rfl | rfl <;> simp at hx
  case press w' e overrun =>
    rcases h with rfl | rfl
    · cases hx
    · obtain rfl : w = w' := by simpa using hx
      exact ⟨e, overrun, rfl⟩
  all_goals cases h; simp at hx

/-- Whoever comes to write a report does so next. -/
theorem Leads.writes (hl : i.Leads next) (hx : x ∈ next) (hw : x.writes = true) : next = [x] := by
  have hy := hl.yields hx
  cases hy with
  | writeReport w e overrun thread =>
    rcases hl with rfl | ⟨thread', rfl⟩
    · cases hx
    · rw [List.mem_singleton.1 hx]
  | _ => cases hw

end Instr

namespace Books

variable {b b' : Books n} {g g' : Gear n} {a : Action n}

/-- What threads still have to do with reports. -/
structure Scribed (b : Books n) : Prop where
  /-- A computer is asked what it is doing by nothing but a report. -/
  asked : ∀ e, .callHost e .writeState ∉ b.todo
  /-- Whoever writes a report does so next. -/
  first : ∀ code ∈ b.codes, ∀ x ∈ code.tail, x.writes = false
  /-- Whoever decides about a report does so about a worker that was started. -/
  known : ∀ w e overrun, .report w e overrun ∈ b.todo → w < b.live.length

theorem Scribed.start : Scribed (start : Books n) := by
  constructor <;> simp [Books.start, todo]

theorem length_live_goes (hg : Goes b g a b' g') : b.live.length ≤ b'.live.length := by
  refine Nat.le_of_not_lt fun hlt => ?_
  -- The last worker that there was would be gone.
  obtain ⟨up, hup⟩ : ∃ up, b.live[b'.live.length]? = some up := ⟨_, List.getElem?_eq_getElem hlt⟩
  have hkeep : ∃ up, b'.live[b'.live.length]? = some up := by
    cases hg with
    | step t i rest next b' g' ht hw he hl hd =>
      rcases (outcome hw he hl hd).live hup with hkeep | ⟨-, -, -, hdown⟩
      · exact ⟨up, hkeep⟩
      · exact ⟨false, hdown⟩
    | _ => exact ⟨up, hup⟩
  simp at hkeep

theorem Scribed.goes (h : b.Scribed) (ho : b.Orderly) (hg : Goes b g a b' g') : b'.Scribed where
  asked e hx := by
    rcases mem_todo_goes hg hx with
      hold | ⟨code, ⟨w, rfl⟩ | rfl, hmem⟩ | ⟨c, hc⟩ | ⟨w, e', hy⟩ | ⟨t, i, rest, next, c, -, hy, -⟩
    · exact h.asked e hold
    · simp at hmem
    · simp at hmem
    · cases hc
    · cases hy
    · cases hy
  first code hc x hx := by
    rcases mem_codes_goes hg hc with hold | (⟨w, rfl⟩ | rfl) | ⟨c, rfl⟩ | rfl | ⟨t, i, rest, next, ht, hl, rfl, -⟩
    · exact h.first code hold x hx
    · rw [List.mem_singleton.1 hx]
      rfl
    · rw [List.mem_singleton.1 hx]
      rfl
    · cases hx
    · cases hx
    · have hrest : ∀ x ∈ rest, x.writes = false := h.first _ (List.mem_of_getElem? ht)
      cases next with
      | nil => exact hrest x (List.mem_of_mem_tail hx)
      | cons j next =>
        rcases List.mem_append.1 hx with hnext | hx
        · refine Bool.eq_false_iff.2 fun hw => ?_
          have hone := hl.writes (List.mem_cons_of_mem j hnext) hw
          rw [(List.cons.inj hone).2] at hnext
          cases hnext
        · exact hrest x hx
  known w e overrun hx := by
    have hgrow := length_live_goes hg
    rcases mem_todo_goes hg hx with
      hold | ⟨code, ⟨w', rfl⟩ | rfl, hmem⟩ | ⟨c, hc⟩ | ⟨w', e', hy⟩ | ⟨t, i, rest, next, c, -, -, hmem, hout, -⟩
    · exact Nat.lt_of_lt_of_le (h.known w e overrun hold) hgrow
    · simp at hmem
    · simp at hmem
    · cases hc
    · cases hy
    · have hlt : w < b.current.length := (List.getElem?_eq_some_iff.1 (hout.current_of_report hmem)).1
      exact Nat.lt_of_lt_of_le (ho.lengths ▸ hlt) hgrow

/-- Time passes by nothing else. -/
theorem clock_goes (hg : Goes b g a b' g') (ha : ∀ nanos, a ≠ .advance nanos) : g'.clock = g.clock := by
  cases hg with
  | advance nanos => exact absurd rfl (ha nanos)
  | step t i rest next b' g' ht hw he hl hd => cases outcome hw he hl hd <;> rfl
  | _ => rfl

/-- What a thread has to do after an action: what it had to before, what a thread begins with, or what its next instruction
leads to. -/
theorem code_goes (hg : Goes b g a b' g') {t : ThreadId} {code : List (Instr n)} (ht : b'.codes[t]? = some code) :
    b.codes[t]? = some code ∨ Begins code ∨ (∃ c, code = [.call c]) ∨ code = [] ∨
      ∃ i rest next, b.codes[t]? = some (i :: rest) ∧ i.Leads next ∧ code = next ++ rest ∧
        ((∃ w e, i = .work w e) ∨ a = .step t) := by
  cases hg with
  | rest => exact Or.inl ht
  | advance => exact Or.inl ht
  | arrive c =>
    have ht : (b.codes ++ [[.call c]])[t]? = some code := ht
    rw [List.getElem?_append] at ht
    split at ht
    · exact Or.inl ht
    · exact Or.inr (Or.inr (Or.inl ⟨c, List.mem_singleton.1 (List.mem_of_getElem? ht)⟩))
  | perform t' w e rest next a ht' ha =>
    have ht : (b.codes.set t' (next ++ rest))[t]? = some code := ht
    by_cases hne : t' = t
    · subst hne
      rw [List.getElem?_set_self (List.getElem?_eq_some_iff.1 ht').1] at ht
      exact Or.inr (Or.inr (Or.inr (Or.inr ⟨_, rest, next, ht', ha.leads, (Option.some.inj ht).symm, Or.inl ⟨w, e, rfl⟩⟩)))
    · rw [List.getElem?_set_ne hne] at ht
      exact Or.inl ht
  | step t' i rest next b' g' ht' hw he hl hd =>
    rcases codes_after ht' he ht with ⟨rfl, rfl⟩ | ⟨-, hold⟩ | hbegins
    · exact Or.inr (Or.inr (Or.inr (Or.inr ⟨i, rest, next, ht', hl, rfl, Or.inr rfl⟩)))
    · exact Or.inl hold
    · exact Or.inr (Or.inl hbegins)
  | tear t' e o rest ht' hf =>
    have ht : (b.codes.set t' [])[t]? = some code := ht
    by_cases hne : t' = t
    · subst hne
      rw [List.getElem?_set_self (List.getElem?_eq_some_iff.1 ht').1] at ht
      exact Or.inr (Or.inr (Or.inr (Or.inl (Option.some.inj ht).symm)))
    · rw [List.getElem?_set_ne hne] at ht
      exact Or.inl ht

end Books

namespace Pool

variable {s : Pool n} {a : Action n} {t : ThreadId}

/-- What a thread has to do after an action it had to do before, or begins with, or what it did leads to it. -/
theorem mem_code_act {x : Instr n} (hx : x ∈ (s.act a).code t) :
    x ∈ s.code t ∨ (∃ code, Books.Begins code ∧ x ∈ code) ∨ (∃ c, x = .call c) ∨
      ∃ i rest, s.code t = i :: rest ∧ i.Yields x ∧ ((∃ w e, i = .work w e) ∨ a = .step t) := by
  simp only [code_eq] at hx ⊢
  cases ht : (s.act a).books.codes[t]? with
  | none =>
    rw [ht] at hx
    cases hx
  | some code =>
    rw [ht] at hx
    have hx : x ∈ code := hx
    rcases Books.code_goes (s.act_goes a) ht with hold | hbegins | ⟨c, rfl⟩ | rfl | ⟨i, rest, next, hold, hl, rfl, hi⟩
    · exact Or.inl (by rwa [hold])
    · exact Or.inr (Or.inl ⟨code, hbegins, hx⟩)
    · exact Or.inr (Or.inr (Or.inl ⟨c, List.mem_singleton.1 hx⟩))
    · cases hx
    · rw [hold]
      rcases List.mem_append.1 hx with hnext | hrest
      · exact Or.inr (Or.inr (Or.inr ⟨i, rest, rfl, hl.yields hnext, hi⟩))
      · exact Or.inl (List.mem_cons_of_mem i hrest)

/-- The threads of a scheduler, as far as reports need them to be in order. -/
structure Reliable (s : Pool n) : Prop where
  orderly : s.books.Orderly
  fitted : s.books.Fitted
  vigilant : s.Vigilant
  scribed : s.books.Scribed

namespace Reliable

variable (h : s.Reliable) {i i' : Instr n} {rest rest' : List (Instr n)} {t' : ThreadId}

include h

theorem act (a : Action n) : (s.act a).Reliable where
  orderly := h.orderly.moves (s.act_moves a)
  fitted := h.fitted.goes (s.act_goes a)
  vigilant := h.vigilant.act h.fitted a
  scribed := h.scribed.goes h.orderly (s.act_goes a)

theorem run (actions : List (Action n)) : (s.run actions).Reliable := by
  induction actions generalizing s with
  | nil => exact h
  | cons a actions ih => exact ih (h.act a)

theorem fits (hcode : s.code t = i :: rest) : i.Fits rest :=
  (h.fitted _ (List.mem_of_getElem? (codes_of_code hcode))).1

/-- Nobody has a report to write after his next step. -/
theorem not_writes (hcode : s.code t = i :: rest) : ∀ x ∈ rest, x.writes = false :=
  h.scribed.first _ (List.mem_of_getElem? (codes_of_code hcode))

theorem not_asked (hcode : s.code t = i :: rest) (e : Fin n) : i ≠ .callHost e .writeState := by
  rintro rfl
  exact h.scribed.asked e (Books.mem_todo (codes_of_code hcode))

/-- Whoever decides about a report or writes one goes on with the rounds of a watchdog. -/
theorem watches (hcode : s.code t = i :: rest) (hi : i.reports = true) : (s.code t).any Instr.watches = true := by
  have hreported : ∀ {w : WorkerId}, Reported w rest → rest.any Instr.watches = true := by
    rintro w (hround | ⟨round, hround, rfl⟩)
    · exact watches_of_round hround
    · rw [List.any_cons, watches_of_round hround, Bool.or_true]
  have hfits := h.fits hcode
  rw [hcode, List.any_cons]
  cases i with
  | report w e overrun => rw [hreported hfits, Bool.or_true]
  | writeReport e overrun thread =>
    obtain ⟨w, hfits⟩ := hfits
    rw [hreported hfits, Bool.or_true]
  | callHost e callback => exact absurd (by rw [of_decide_eq_true hi]) (h.not_asked hcode e)
  | _ => cases hi

/-- Only one thread decides about reports and writes them. -/
theorem one (hcode : s.code t = i :: rest) (hi : i.reports = true) (hcode' : s.code t' = i' :: rest')
    (hi' : i'.reports = true) : t' = t :=
  Option.some.inj ((h.vigilant.only t' (h.watches hcode' hi')).symm.trans (h.vigilant.only t (h.watches hcode hi)))

/-- Whoever has a report to write does so next. -/
theorem head_of_writes {x : Instr n} (hx : x ∈ s.code t) (hw : x.writes = true) : ∃ rest, s.code t = x :: rest := by
  cases hcode : s.code t with
  | nil =>
    rw [hcode] at hx
    cases hx
  | cons i rest =>
    rw [hcode] at hx
    rcases List.mem_cons.1 hx with rfl | hrest
    · exact ⟨rest, rfl⟩
    · have hnot := h.not_writes hcode x hrest
      rw [hw] at hnot
      cases hnot

/-- Whoever decides about a report does so about a worker that is there. -/
theorem started {w : WorkerId} {e : Fin n} {overrun : Duration} (hcode : s.code t = .report w e overrun :: rest) :
    ∃ worker, s.workers[w]? = some worker := by
  have hlt := h.scribed.known w e overrun (Books.mem_todo (codes_of_code hcode))
  exact ⟨_, List.getElem?_eq_getElem (by simpa [books] using hlt)⟩

/-- What else happens while a thread has a report to decide about or to write does not concern reports, and the thread still
has that to do. -/
theorem aside (hcode : s.code t = i :: rest) (hi : i.reports = true) (ha : a ≠ .step t) :
    (∀ j, s.head? a = some j → j.reports = false) ∧ (s.act a).code t = i :: rest := by
  constructor
  · intro j hj
    refine Bool.eq_false_iff.2 fun hreports => ?_
    cases a with
    | step t' =>
      obtain ⟨rest', hcode'⟩ := List.head?_eq_some_iff.1 hj
      exact ha (by rw [h.one hcode hi hcode' hreports])
    | _ => cases hj
  · refine (act_code s ha ?_ (by simp [hcode])).trans hcode
    intro w e rest' hwork
    rw [hcode] at hwork
    rw [(List.cons.inj hwork).1] at hi
    cases hi

/-- As long as the thread takes no step, nothing happens to reports. -/
theorem pause (hcode : s.code t = i :: rest) (hi : i.reports = true) {pause : List (Action n)}
    (hpause : ∀ a ∈ pause, a ≠ .step t) :
    (s.run pause).code t = i :: rest ∧ s.filings pause = [] ∧ (s.run pause).minutes = s.minutes := by
  induction pause generalizing s with
  | nil => exact ⟨hcode, rfl, rfl⟩
  | cons a pause ih =>
    obtain ⟨ha, hpause⟩ := List.forall_mem_cons.1 hpause
    obtain ⟨hnone, hkeep⟩ := h.aside hcode hi ha
    obtain ⟨hcode', hfilings, hminutes⟩ := ih (h.act a) hkeep hpause
    refine ⟨hcode', ?_, hminutes.trans (s.minutes_act hnone)⟩
    rw [filings, filing?_of_not_reports hnone, hfilings]
    rfl

end Reliable

/-! ## When a worker is reported -/

/-- The reports that were begun, and when each worker was last reported. -/
structure Spaced (s : Pool n) (drafts : List (Draft n)) : Prop where
  /-- Whoever was reported was so last when one of them was begun. -/
  latest : ∀ w last, s.lastReport? w = some last → ∃ d ∈ drafts, d.worker = w ∧ d.begun = last
  /-- Whoever is named in one of them was last reported then or later. -/
  known : ∀ d ∈ drafts, ∃ last, s.lastReport? d.worker = some last ∧ d.begun ≤ last
  past : ∀ d ∈ drafts, d.begun ≤ s.clock
  /-- Those of one worker are some time apart. -/
  apart : drafts.Pairwise fun d d' => d.worker = d'.worker → d.begun + s.config.reportDebounce.nanos ≤ d'.begun

/-- A worker may be reported unless it was a short time ago. -/
theorem Spaced.mayReport_iff {drafts : List (Draft n)} (h : s.Spaced drafts) {w : WorkerId} {worker : Worker n}
    (hw : s.workers[w]? = some worker) :
    s.mayReport worker = true ↔
      ∀ d ∈ drafts, d.worker = w → d.begun + s.config.reportDebounce.nanos ≤ s.clock := by
  have hlast : s.lastReport? w = worker.lastReport := by rw [lastReport?, hw]; rfl
  unfold mayReport
  split
  · rename_i last hsome
    obtain ⟨d, hd, hworker, rfl⟩ := h.latest w last (hlast.trans hsome)
    rw [decide_eq_true_iff]
    constructor
    · rintro hlong d' hd' rfl
      obtain ⟨last, hlast', hle⟩ := h.known d' hd'
      obtain rfl := Option.some.inj ((hlast.trans hsome).symm.trans hlast')
      exact Nat.le_trans (Nat.add_le_add_right hle _) (Nat.add_le_of_le_sub' (h.past d hd) hlong)
    · exact fun hall => Nat.le_sub_of_add_le' (hall d hd hworker)
  · rename_i hnone
    refine iff_of_true rfl ?_
    rintro d hd rfl
    obtain ⟨last, hsome, -⟩ := h.known d hd
    rw [hlast, hnone] at hsome
    cases hsome

/-- What does not change when workers were last reported keeps reports apart. -/
theorem Spaced.keep {drafts : List (Draft n)} (h : s.Spaced drafts) {s' : Pool n} (hlast : s'.lastReport? = s.lastReport?)
    (hconfig : s'.config = s.config) (hclock : s.clock ≤ s'.clock) : s'.Spaced drafts := by
  refine ⟨?_, ?_, fun d hd => Nat.le_trans (h.past d hd) hclock, ?_⟩
  · rw [hlast]
    exact h.latest
  · rw [hlast]
    exact h.known
  · rw [hconfig]
    exact h.apart

/-- A report that may be made is apart from the others. -/
theorem Spaced.begin {drafts : List (Draft n)} (h : s.Spaced drafts) {d : Draft n} {worker : Worker n}
    (hw : s.workers[d.worker]? = some worker) (hmay : s.mayReport worker = true) (hbegun : d.begun = s.clock) {s' : Pool n}
    (hlast : ∀ w, s'.lastReport? w = if d.worker = w then some s.clock else s.lastReport? w)
    (hconfig : s'.config = s.config) (hclock : s'.clock = s.clock) : s'.Spaced (drafts ++ [d]) := by
  have hlong := (h.mayReport_iff hw).1 hmay
  constructor
  case latest =>
    intro w last hsome
    rw [hlast] at hsome
    split at hsome
    · rename_i hworker
      exact ⟨d, by simp, hworker, hbegun.trans (Option.some.inj hsome)⟩
    · obtain ⟨d', hd', hrest⟩ := h.latest w last hsome
      exact ⟨d', List.mem_append_left _ hd', hrest⟩
  case known =>
    intro d' hd'
    rw [hlast]
    rcases List.mem_append.1 hd' with hd' | hd'
    · split
      · exact ⟨s.clock, rfl, h.past d' hd'⟩
      · exact h.known d' hd'
    · rw [List.mem_singleton.1 hd', if_pos rfl]
      exact ⟨s.clock, rfl, Nat.le_of_eq hbegun⟩
  case past =>
    intro d' hd'
    rw [hclock]
    rcases List.mem_append.1 hd' with hd' | hd'
    · exact h.past d' hd'
    · rw [List.mem_singleton.1 hd', hbegun]
  case apart =>
    rw [hconfig]
    refine List.pairwise_append.2 ⟨h.apart, List.pairwise_singleton _ _, fun d' hd' d'' hd'' hsame => ?_⟩
    rw [List.mem_singleton.1 hd''] at hsame ⊢
    rw [hbegun]
    exact hlong d' hd' hsame

/-! ## Beginning and writing -/

/-- A thread that decides about a report begins it if it may, and does nothing else otherwise. -/
theorem step_report {w : WorkerId} {e : Fin n} {overrun : Duration} {rest : List (Instr n)} {worker : Worker n}
    (hcode : s.code t = .report w e overrun :: rest) (hw : s.workers[w]? = some worker)
    (hlog : s.log.keeps .warn = true) :
    s.step t =
      if s.mayReport worker then
        (s.modifyWorker w fun worker => { worker with lastReport := some s.clock }).setCode t
          (.writeReport e overrun worker.threadName :: rest)
      else s.setCode t rest := by
  have hbegin := beginReport_eq (s := s.setCode t rest) hw hlog e overrun
  have hmay : (s.setCode t rest).mayReport worker = s.mayReport worker := rfl
  unfold step
  simp only [hcode, mustWait, Bool.false_eq_true, if_false, exec, hbegin, hmay]
  cases s.mayReport worker with
  | true => exact setCode_setCode (s.modifyWorker w fun worker => { worker with lastReport := some s.clock }) ..
  | false => exact setCode_setCode s ..

theorem filing?_report {w : WorkerId} {e : Fin n} {overrun : Duration} {rest : List (Instr n)} {worker : Worker n}
    (hcode : s.code t = .report w e overrun :: rest) (hw : s.workers[w]? = some worker)
    (hlog : s.log.keeps .warn = true) :
    s.filing? (.step t) =
      if s.mayReport worker then some (.begun ⟨w, e, overrun, worker.threadName, s.clock⟩) else none := by
  unfold filing?
  simp only [head?_step hcode, beginReport_eq hw hlog]
  cases s.mayReport worker <;> rfl

/-- A thread that writes a report has done so after that, and changes nothing else that is on record. -/
theorem step_writeReport {e : Fin n} {overrun : Duration} {thread : String} {rest : List (Instr n)}
    (hcode : s.code t = .writeReport e overrun thread :: rest) :
    (s.step t).minutes =
        { s.minutes with told := s.minutes.told ++ (s.executor e).host.reportEvents e overrun thread } ∧
      (s.step t).code t = rest := by
  constructor
  · obtain ⟨code, hstep, -⟩ := step_code hcode rfl
    rw [hstep]
    exact (s.setCode t rest).minutes_writeReport e overrun thread
  · rcases step_goes s t hcode rfl with ⟨next, b', g', he, hl, -, hb, -⟩ | ⟨e', o, hi, -⟩
    · obtain rfl : next = [] := hl
      exact code_step (codes_of_code hcode) he hb
    · cases hi

theorem filing?_writeReport {e : Fin n} {overrun : Duration} {thread : String} {rest : List (Instr n)}
    (hcode : s.code t = .writeReport e overrun thread :: rest) :
    s.filing? (.step t) = some (.written e overrun thread s.clock) := by
  unfold filing?
  rw [head?_step hcode]

/-- Nobody has a report to write after an action unless he had before, or begins one. -/
theorem writes_act {x : Instr n} (hx : x ∈ (s.act a).code t) (hw : x.writes = true) :
    x ∈ s.code t ∨ ∃ w e overrun rest, a = .step t ∧ s.code t = .report w e overrun :: rest := by
  rcases mem_code_act hx with hold | ⟨code, ⟨w, rfl⟩ | rfl, hmem⟩ | ⟨c, rfl⟩ | ⟨i, rest, hcode, hy, hi⟩
  · exact Or.inl hold
  · have hnone : x = .startWorker w ∨ x = .nextSlice w := by simpa using hmem
    rcases hnone with rfl | rfl <;> cases hw
  · have hnone : x = .startWatchdog ∨ x = .watch := by simpa using hmem
    rcases hnone with rfl | rfl <;> cases hw
  · cases hw
  · cases hy with
    | writeReport w e overrun thread =>
      rcases hi with ⟨w', e', hi⟩ | ha
      · cases hi
      · exact Or.inr ⟨w, e, overrun, rest, ha, hcode⟩
    | _ => cases hw

theorem not_writes_of_advance {nanos : Nat} (h : s.writesAtOnce (.advance nanos) = true) (t : ThreadId) :
    ∀ x ∈ s.code t, x.writes = false := by
  intro x hx
  unfold code at hx
  split at hx
  · rename_i thread hthread
    have hall := List.all_eq_true.1 (List.all_eq_true.1 h thread (List.mem_of_getElem? hthread)) x hx
    simpa using hall
  · cases hx

/-- What does not change in the course of a run. -/
theorem act_fixed (s : Pool n) (a : Action n) :
    (s.act a).config = s.config ∧ s.clock ≤ (s.act a).clock ∧
      ∀ e, ((s.act a).executor e).host = (s.executor e).host :=
  ⟨config_goes (s.act_goes a), Books.clock_le_goes (s.act_goes a), fun e => congrFun (Books.host_goes (s.act_goes a)) e⟩

/-- The reports of a run so far: those that were written, and perhaps one that was begun. -/
structure Filed (s : Pool n) (atOnce : Prop) (filings : List (Filing n)) (reports : List (Report n))
    (draft : Option (Draft n)) : Prop where
  keeps : s.log.keeps .warn = true
  filings : filings = reports.flatMap Report.filings ++ draft.toList.map .begun
  spaced : s.Spaced (reports.map Report.toDraft ++ draft.toList)
  told : s.minutes.told = reports.flatMap fun r => r.events (s.executor r.executor).host
  timely : ∀ r ∈ reports, r.begun ≤ r.written ∧ r.written ≤ s.clock
  /-- Each is written before the next one is begun. -/
  settled : reports.Pairwise fun r r' => r.written ≤ r'.begun
  before : ∀ d, draft = some d → ∀ r ∈ reports, r.written ≤ d.begun
  /-- Whoever began a report writes it next. -/
  pending : ∀ d, draft = some d → ∃ t rest, s.code t = .writeReport d.executor d.overrun d.thread :: rest
  idle : draft = none → ∀ t, ∀ x ∈ s.code t, x.writes = false
  /-- Each is written when it is begun if that is done at once. -/
  prompt : atOnce → (∀ r ∈ reports, r.written = r.begun) ∧ ∀ d, draft = some d → d.begun = s.clock

namespace Filed

variable {atOnce : Prop} {filings : List (Filing n)} {reports : List (Report n)} {draft : Option (Draft n)}

/-- While a thread decides about a report, none is begun. -/
theorem no_draft (h : s.Filed atOnce filings reports draft) (hr : s.Reliable) {w : WorkerId} {e : Fin n}
    {overrun : Duration} {rest : List (Instr n)} (hcode : s.code t = .report w e overrun :: rest) : draft = none := by
  cases draft with
  | none => rfl
  | some d =>
    obtain ⟨t', rest', hcode'⟩ := h.pending d rfl
    obtain rfl := hr.one hcode rfl hcode' rfl
    rw [hcode] at hcode'
    cases hcode'

/-- An action that has nothing to do with reports. -/
theorem aside (h : s.Filed atOnce filings reports draft) (hr : s.Reliable) {atOnce' : Prop}
    (honce : atOnce' → atOnce ∧ s.writesAtOnce a = true) (ha : ∀ i, s.head? a = some i → i.reports = false) :
    (s.act a).Filed atOnce' filings reports draft := by
  have hminutes := s.minutes_act ha
  obtain ⟨hconfig, hclock, hhost⟩ := s.act_fixed a
  -- Whoever has a report to write does not take the step.
  have hpending : ∀ d, draft = some d → ∃ t rest, s.code t = .writeReport d.executor d.overrun d.thread :: rest ∧
      a ≠ .step t := by
    intro d hd
    obtain ⟨t, rest, hcode⟩ := h.pending d hd
    refine ⟨t, rest, hcode, ?_⟩
    rintro rfl
    cases ha _ (head?_step hcode)
  constructor
  case keeps =>
    rw [show (s.act a).log = s.log from congrArg Minutes.log hminutes]
    exact h.keeps
  case filings => exact h.filings
  case spaced => exact h.spaced.keep (congrArg Minutes.last hminutes) hconfig hclock
  case told =>
    simp only [hminutes, hhost]
    exact h.told
  case timely => exact fun r hmem => ⟨(h.timely r hmem).1, Nat.le_trans (h.timely r hmem).2 hclock⟩
  case settled => exact h.settled
  case before => exact h.before
  case pending =>
    intro d hd
    obtain ⟨t, rest, hcode, hstep⟩ := hpending d hd
    exact ⟨t, rest, (hr.aside hcode rfl hstep).2⟩
  case idle =>
    intro hnone t x hx
    refine Bool.eq_false_iff.2 fun hw => ?_
    rcases writes_act hx hw with hold | ⟨w, e, overrun, rest, rfl, hcode⟩
    · exact absurd hw (Bool.eq_false_iff.1 (h.idle hnone t x hold))
    · cases ha _ (head?_step hcode)
  case prompt =>
    intro hall
    obtain ⟨hall, hnow⟩ := honce hall
    refine ⟨(h.prompt hall).1, fun d hd => ((h.prompt hall).2 d hd).trans ?_⟩
    obtain ⟨t, rest, hcode, -⟩ := hpending d hd
    refine (Books.clock_goes (s.act_goes a) ?_).symm
    rintro nanos rfl
    have hnot := not_writes_of_advance hnow t (.writeReport d.executor d.overrun d.thread)
      (by rw [hcode]; exact List.mem_cons_self)
    cases hnot

/-- A report is begun. -/
theorem begin (h : s.Filed atOnce filings reports none) {atOnce' : Prop} (honce : atOnce' → atOnce) {w : WorkerId}
    {e : Fin n} {overrun : Duration} {rest : List (Instr n)} {worker : Worker n}
    (hcode : s.code t = .report w e overrun :: rest) (hw : s.workers[w]? = some worker)
    (hmay : s.mayReport worker = true) :
    (s.step t).Filed atOnce' (filings ++ [.begun ⟨w, e, overrun, worker.threadName, s.clock⟩]) reports
      (some ⟨w, e, overrun, worker.threadName, s.clock⟩) := by
  have hstep := step_report hcode hw h.keeps
  rw [if_pos hmay] at hstep
  have hlast : ∀ w', (s.step t).lastReport? w' = if w = w' then some s.clock else s.lastReport? w' := by
    intro w'
    rw [hstep]
    refine (s.lastReport?_modifyWorker w w' _).trans ?_
    split
    · rename_i hsame
      rw [← hsame, hw]
      rfl
    · rfl
  constructor
  case keeps =>
    rw [hstep]
    exact h.keeps
  case filings =>
    rw [h.filings, Option.toList_none, List.map_nil, List.append_nil]
    rfl
  case spaced =>
    have hspaced := h.spaced
    rw [Option.toList_none, List.append_nil] at hspaced
    exact hspaced.begin hw hmay rfl hlast (by rw [hstep]; rfl) (by rw [hstep]; rfl)
  case told =>
    rw [hstep]
    exact h.told
  case timely =>
    rw [hstep]
    exact h.timely
  case settled => exact h.settled
  case before =>
    rintro d ⟨⟩ r hr
    exact (h.timely r hr).2
  case pending =>
    rintro d ⟨⟩
    rw [hstep]
    exact ⟨t, rest, code_setCode_self (show (s.modifyWorker w _).code t = _ from hcode) _⟩
  case idle => exact fun hnone => nomatch hnone
  case prompt =>
    refine fun hall => ⟨(h.prompt (honce hall)).1, ?_⟩
    rintro d ⟨⟩
    rw [hstep]
    rfl

/-- A report is not begun. -/
theorem refuse (h : s.Filed atOnce filings reports none) (hr : s.Reliable) {atOnce' : Prop} (honce : atOnce' → atOnce)
    {w : WorkerId} {e : Fin n} {overrun : Duration} {rest : List (Instr n)}
    (hcode : s.code t = .report w e overrun :: rest) :
    (s.setCode t rest).Filed atOnce' filings reports none where
  keeps := h.keeps
  filings := h.filings
  spaced := h.spaced.keep rfl rfl (Nat.le_refl _)
  told := h.told
  timely := h.timely
  settled := h.settled
  before := h.before
  pending d hd := nomatch hd
  idle _ t' x hx := by
    by_cases hne : t' = t
    · subst hne
      rw [code_setCode_self hcode] at hx
      exact hr.not_writes hcode x hx
    · rw [code_setCode_ne s hne] at hx
      exact h.idle rfl t' x hx
  prompt hall := ⟨(h.prompt (honce hall)).1, fun _ hd => nomatch hd⟩

/-- A report is written. -/
theorem write {d : Draft n} (h : s.Filed atOnce filings reports (some d)) (hr : s.Reliable) {atOnce' : Prop}
    (honce : atOnce' → atOnce) {rest : List (Instr n)}
    (hcode : s.code t = .writeReport d.executor d.overrun d.thread :: rest) :
    (s.step t).Filed atOnce' (filings ++ [.written d.executor d.overrun d.thread s.clock]) (reports ++ [⟨d, s.clock⟩])
      none := by
  obtain ⟨hminutes, hrest⟩ := step_writeReport hcode
  obtain ⟨hconfig, hclock, hhost⟩ := s.act_fixed (.step t)
  constructor
  case keeps =>
    rw [show (s.step t).log = s.log from congrArg Minutes.log hminutes]
    exact h.keeps
  case filings => simp [h.filings, Report.filings]
  case spaced =>
    have hspaced := h.spaced.keep (congrArg Minutes.last hminutes) hconfig hclock
    simpa using hspaced
  case told =>
    have hhost : ∀ e, ((s.step t).executor e).host = (s.executor e).host := hhost
    simp only [hminutes, hhost, h.told, List.flatMap_append, List.flatMap_singleton]
    rfl
  case timely =>
    intro r hmem
    rcases List.mem_append.1 hmem with hmem | hmem
    · exact ⟨(h.timely r hmem).1, Nat.le_trans (h.timely r hmem).2 hclock⟩
    · rw [List.mem_singleton.1 hmem]
      exact ⟨h.spaced.past d (by simp), hclock⟩
  case settled =>
    refine List.pairwise_append.2 ⟨h.settled, List.pairwise_singleton _ _, fun r hmem r' hmem' => ?_⟩
    rw [List.mem_singleton.1 hmem']
    exact h.before d rfl r hmem
  case before => exact fun _ hd => nomatch hd
  case pending => exact fun _ hd => nomatch hd
  case idle =>
    intro _ t' x hx
    refine Bool.eq_false_iff.2 fun hw => ?_
    by_cases hne : t' = t
    · subst hne
      rw [hrest] at hx
      have hnot := hr.not_writes hcode x hx
      rw [hw] at hnot
      cases hnot
    · rcases writes_act (a := .step t) hx hw with hold | ⟨w, e, overrun, rest', ha, -⟩
      · obtain ⟨rest', hcode'⟩ := hr.head_of_writes hold hw
        exact hne (hr.one hcode rfl hcode' (by cases x <;> first | rfl | cases hw))
      · cases ha
        exact hne rfl
  case prompt =>
    refine fun hall => ⟨fun r hmem => ?_, fun _ hd => nomatch hd⟩
    rcases List.mem_append.1 hmem with hmem | hmem
    · exact (h.prompt (honce hall)).1 r hmem
    · rw [List.mem_singleton.1 hmem]
      exact ((h.prompt (honce hall)).2 d rfl).symm

/-- Reports are begun and written in the course of any action as they should be. -/
theorem act (h : s.Filed atOnce filings reports draft) (hr : s.Reliable) (a : Action n) {atOnce' : Prop}
    (honce : atOnce' → atOnce ∧ s.writesAtOnce a = true) :
    ∃ reports draft, (s.act a).Filed atOnce' (filings ++ (s.filing? a).toList) reports draft := by
  by_cases hreport : ∃ i, s.head? a = some i ∧ i.reports = true
  case neg =>
    have hnone : ∀ i, s.head? a = some i → i.reports = false := fun i hi =>
      Bool.eq_false_iff.2 fun hrep => hreport ⟨i, hi, hrep⟩
    rw [filing?_of_not_reports hnone, Option.toList_none, List.append_nil]
    exact ⟨reports, draft, h.aside hr honce hnone⟩
  case pos =>
    obtain ⟨i, hi, hrep⟩ := hreport
    cases a with
    | step t =>
      obtain ⟨rest, hcode⟩ := List.head?_eq_some_iff.1 hi
      show ∃ reports draft, (s.step t).Filed atOnce' _ reports draft
      cases i with
      | report w e overrun =>
        obtain ⟨worker, hw⟩ := hr.started hcode
        obtain rfl := h.no_draft hr hcode
        rw [filing?_report hcode hw h.keeps]
        cases hmay : s.mayReport worker with
        | true => exact ⟨reports, _, h.begin (fun hall => (honce hall).1) hcode hw hmay⟩
        | false =>
          have hstep := step_report hcode hw h.keeps
          rw [hmay] at hstep
          rw [hstep]
          refine ⟨reports, none, ?_⟩
          simpa using h.refuse hr (fun hall => (honce hall).1) hcode
      | writeReport e overrun thread =>
        cases draft with
        | none =>
          have hnot := h.idle rfl t (.writeReport e overrun thread) (by rw [hcode]; exact List.mem_cons_self)
          cases hnot
        | some d =>
          obtain ⟨t', rest', hcode'⟩ := h.pending d rfl
          obtain rfl := hr.one hcode rfl hcode' rfl
          rw [filing?_writeReport hcode']
          exact ⟨_, none, h.write hr (fun hall => (honce hall).1) hcode'⟩
      | callHost e callback => exact absurd (by rw [of_decide_eq_true hrep]) (hr.not_asked hcode e)
      | _ => cases hrep
    | _ => cases hi

end Filed

/-- What a check does that compares an overrun with the later steps of escalation: nothing, or it interrupts the worker, and
decides next whether that is reported and only then, if at all, abandons it. -/
theorem step_press {w : WorkerId} {e : Fin n} {overrun : Duration} {rest : List (Instr n)}
    (hcode : s.code t = .press w e overrun :: rest) :
    ((s.step t).deeds = s.deeds ∧ (s.step t).code t = rest) ∨
      ∃ retire, (retire = [] ∨ retire = [.retire w]) ∧ (s.step t).deeds = s.deeds ++ [.interrupted w] ∧
        (s.step t).code t = .report w e overrun :: (retire ++ rest) := by
  rcases step_goes s t hcode rfl with ⟨next, b', g', he, -, hd, hb, hg⟩ | ⟨e', o, hi, -⟩
  · have hnext := code_step (codes_of_code hcode) he hb
    have hdeeds : (s.step t).deeds = g'.deeds := congrArg Gear.deeds hg
    rw [hnext, hdeeds]
    simp only [Instr.Drive] at hd
    split at hd
    · obtain ⟨rfl, rfl⟩ := hd
      right
      refine ⟨_, ?_, rfl, rfl⟩
      split
      · exact Or.inr rfl
      · exact Or.inl rfl
    · obtain ⟨rfl, rfl⟩ := hd
      exact Or.inl ⟨rfl, rfl⟩
  · cases hi

/-- A watchdog comes to retire a worker by interrupting it, and decides before that whether that is reported. -/
theorem Reliable.abandons {w : WorkerId} (h : s.Reliable) (hx : .retire w ∈ (s.act a).code t) (hnew : .retire w ∉ s.code t)
    (hwatch : ((s.act a).code t).any Instr.watches = true) :
    a = .step t ∧ (s.act a).deeds = s.deeds ++ [.interrupted w] ∧
      ∃ e overrun rest, (s.act a).code t = .report w e overrun :: .retire w :: rest := by
  rcases mem_code_act hx with hold | ⟨code, ⟨w', rfl⟩ | rfl, hmem⟩ | ⟨c, hc⟩ | ⟨i, rest, hcode, hy, hi⟩
  · exact absurd hold hnew
  · simp at hmem
  · simp at hmem
  · cases hc
  · obtain rfl : a = .step t := by
      rcases hi with ⟨w', e, rfl⟩ | ha
      · cases hy
      · exact ha
    have hfits := h.fits hcode
    -- A worker's own thread does not go on with the rounds of a watchdog.
    have hown : rest.any Instr.watches = false → i.watches = false → False := by
      intro hrest hi
      cases hwait : s.mustWait t i with
      | true =>
        have hsame : s.act (.step t) = s := step_of_mustWait hcode hwait
        rw [hsame] at hx
        exact hnew hx
      | false =>
        obtain ⟨code, hstep, hcome⟩ := step_code hcode hwait
        have hwatch : ((s.step t).code t).any Instr.watches = true := hwatch
        rw [hstep] at hwatch
        rcases hcome (any_setCode hwatch) with hup | hup
        · rw [hrest] at hup
          cases hup
        · rw [hi] at hup
          cases hup
    cases hy with
    | dismiss =>
      obtain rfl : rest = [] := hfits
      exact (hown rfl rfl).elim
    | seekRetire =>
      obtain rfl : rest = [.nextSlice w] := hfits
      exact (hown rfl rfl).elim
    | awaitRetire =>
      obtain rfl : rest = [.nextSlice w] := hfits
      exact (hown rfl rfl).elim
    | giveUp _ e overrun =>
      have hrest : .retire w ∉ rest := fun hmem => hnew (hcode ▸ List.mem_cons_of_mem _ hmem)
      refine ⟨rfl, ?_⟩
      have hx : .retire w ∈ (s.step t).code t := hx
      show (s.step t).deeds = _ ∧ ∃ e overrun rest, (s.step t).code t = _
      rcases step_press hcode with ⟨-, hcode'⟩ | ⟨retire, rfl | rfl, hdeeds, hcode'⟩
      · exact absurd (hcode' ▸ hx) hrest
      · rw [hcode'] at hx
        exact absurd (by simpa using hx) hrest
      · exact ⟨hdeeds, e, overrun, rest, hcode'⟩

/-! ## The reports of a run -/

/-- What becomes of a decision about a report, which a thread takes next. -/
structure Decides (s : Pool n) (reports : List (Report n)) (t : ThreadId) (w : WorkerId) (e : Fin n) (overrun : Duration)
    (rest : List (Instr n)) : Prop where
  /-- Whatever else happens, the thread still has it to take. -/
  waits : ∀ a, a ≠ .step t → (s.act a).code t = .report w e overrun :: rest
  /-- If a report of the worker was begun too recently, none is made, and everything is as it would be without the
  decision. -/
  refuses : (∃ r ∈ reports, r.worker = w ∧ s.clock < r.begun + s.config.reportDebounce.nanos) →
    s.step t = s.setCode t rest
  /-- Otherwise one is begun, and the next step of the thread writes it, whatever else happens before that. -/
  reports : (∀ r ∈ reports, r.worker = w → r.begun + s.config.reportDebounce.nanos ≤ s.clock) →
    ∃ worker, s.workers[w]? = some worker ∧ ∀ pause, (∀ a ∈ pause, a ≠ .step t) →
      let before := (s.step t).run pause
      let report : Report n := ⟨⟨w, e, overrun, worker.threadName, s.clock⟩, before.clock⟩
      s.filings (.step t :: pause ++ [.step t]) = report.filings ∧
        (before.step t).minutes.told = s.minutes.told ++ report.events (s.executor e).host ∧
        (before.step t).code t = rest

theorem Filed.decides {atOnce : Prop} {filings : List (Filing n)} {reports : List (Report n)} {draft : Option (Draft n)}
    (h : s.Filed atOnce filings reports draft) (hr : s.Reliable) {w : WorkerId} {e : Fin n} {overrun : Duration}
    {rest : List (Instr n)} (hcode : s.code t = .report w e overrun :: rest) :
    s.Decides reports t w e overrun rest := by
  obtain ⟨worker, hw⟩ := hr.started hcode
  obtain rfl := h.no_draft hr hcode
  have hmay : s.mayReport worker = true ↔
      ∀ r ∈ reports, r.worker = w → r.begun + s.config.reportDebounce.nanos ≤ s.clock := by
    rw [h.spaced.mayReport_iff hw, Option.toList_none, List.append_nil, List.forall_mem_map]
  have hstep := step_report hcode hw h.keeps
  constructor
  case waits => exact fun a ha => (hr.aside hcode rfl ha).2
  case refuses =>
    rintro ⟨r, hmem, hworker, hrecent⟩
    rw [hstep, if_neg fun hup => Nat.not_lt.2 (hmay.1 hup r hmem hworker) hrecent]
  case reports =>
    intro hall
    rw [if_pos (hmay.2 hall)] at hstep
    refine ⟨worker, hw, fun pause hpause => ?_⟩
    intro before report
    have hbegun : (s.step t).code t = .writeReport e overrun worker.threadName :: rest := by
      rw [hstep]
      exact code_setCode_self (show (s.modifyWorker w _).code t = _ from hcode) _
    obtain ⟨hbefore, hquiet, hminutes⟩ := (hr.act (.step t)).pause hbegun rfl hpause
    obtain ⟨hwritten, hrest⟩ := step_writeReport (s := before) hbefore
    refine ⟨?_, ?_, hrest⟩
    · have hfirst : s.filing? (.step t) = some (.begun report.toDraft) := by
        rw [filing?_report hcode hw h.keeps, if_pos (hmay.2 hall)]
      have hlast : before.filing? (.step t) = some (.written e overrun worker.threadName before.clock) :=
        filing?_writeReport hbefore
      have hone : before.filings [.step t] = [.written e overrun worker.threadName before.clock] := by
        rw [Pool.filings, hlast]
        rfl
      have hmore : (s.step t).filings (pause ++ [.step t]) = [.written e overrun worker.threadName before.clock] := by
        rw [filings_append]
        exact (congrArg (· ++ _) hquiet).trans hone
      rw [List.cons_append, Pool.filings, hfirst]
      exact congrArg (List.cons _) hmore
    · have hhost : (before.executor e).host = (s.executor e).host :=
        (run_host (s.step t) pause e).trans ((s.act_fixed (.step t)).2.2 e)
      have htold : before.minutes.told = s.minutes.told := by
        rw [show before.minutes = (s.step t).minutes from hminutes, hstep]
        rfl
      rw [hwritten, hhost, htold]
      rfl

/-- A scheduler whose log keeps warnings, with an executor whose computer fails to say what it is doing. -/
def silent : Pool 1 :=
  create {} { registry := {}, standard := let m := ⟨0, "", .counter⟩; ⟨m, m, m, m, m, m, m⟩ } (some .warn)
    #v[{ computer := ⟨0⟩, sink := .nowhere, failure := fun _ => some "broken" }]

end Pool

end FairShare.Scheduler
