import FairShare.Proofs.Account

/-!
# The ledger

Every move of the books is a move of each executor's account. So what every move of an account keeps holds of
the account of each executor after every run.
-/

namespace FairShare.Scheduler

variable {n : Nat}

namespace Instr

/-- Whether an instruction goes on with a submit of an executor. -/
@[simp] def enters (e : Fin n) : Instr n → Bool
  | .enqueue e' | .withdraw e' => e' = e
  | _ => false

/-- Whether an instruction takes an executor out of the run queue because it is unloaded. -/
@[simp] def leaves (e : Fin n) : Instr n → Bool
  | .dequeue e' => e' = e
  | _ => false

/-- Whether an instruction finishes an unload of an executor. -/
@[simp] def finishes (e : Fin n) : Instr n → Bool
  | .finishUnload e' => e' = e
  | _ => false

/-- Whether an instruction tells the host that an executor is unloaded. -/
@[simp] def tells (e : Fin n) : Instr n → Bool
  | .callHost e' .unload => e' = e
  | _ => false

/-- Whether an instruction tells the metrics context that an executor is unloaded. -/
@[simp] def announces (e : Fin n) : Instr n → Bool
  | .announce e' => e' = e
  | _ => false

/-- Whether an instruction belongs to a stay of an executor on a worker, at a time when the slice is not
published. -/
@[simp] def stays (e : Fin n) : Instr n → Bool
  | .openSlice _ e' | .noteAllocated _ e' | .publish _ e' _ | .resetTimer e' _ | .settle e' => e' = e
  | _ => false

theorem rank_of_enters {e : Fin n} {i : Instr n} (h : i.enters e = true) : i.rank = 1 := by
  cases i <;> first | rfl | cases h

theorem rank_of_leaves {e : Fin n} {i : Instr n} (h : i.leaves e = true) : i.rank = 0 := by
  cases i <;> first | rfl | cases h

theorem rank_of_finishes {e : Fin n} {i : Instr n} (h : i.finishes e = true) : i.rank = 1 := by
  cases i <;> first | rfl | cases h

theorem rank_of_tells {e : Fin n} {i : Instr n} (h : i.tells e = true) : i.rank = 0 := by
  cases i
  case callHost e' callback => cases callback <;> first | rfl | cases h
  all_goals cases h

theorem rank_of_announces {e : Fin n} {i : Instr n} (h : i.announces e = true) : i.rank = 1 := by
  cases i <;> first | rfl | cases h

end Instr

open Instr

namespace Account

/-- An account together with some instructions that are still to be carried out. -/
def plus (a : Account) (e : Fin n) (code : List (Instr n)) : Account :=
  { a with
    entering := a.entering + code.countP (enters e)
    leaving := a.leaving + code.countP (leaves e)
    finishing := a.finishing + code.countP (finishes e)
    calling := a.calling + code.countP (tells e)
    announcing := a.announcing + code.countP (announces e)
    staying := a.staying + code.countP (stays e) }

theorem plus_nil (a : Account) (e : Fin n) : a.plus e [] = a := rfl

theorem plus_plain (a : Account) (e : Fin n) {code : List (Instr n)}
    (h : ∀ i ∈ code, i.isPlain = true) : a.plus e code = a := by
  have hz : ∀ p : Instr n → Bool, (∀ x : Instr n, x.isPlain = true → p x = false) →
      code.countP p = 0 := fun p hp => countP_plain hp h
  have h1 := hz (enters e) fun x hx => by cases x <;> first | rfl | cases hx
  have h2 := hz (leaves e) fun x hx => by cases x <;> first | rfl | cases hx
  have h3 := hz (finishes e) fun x hx => by cases x <;> first | rfl | cases hx
  have h4 := hz (tells e) fun x hx => by
    cases x
    case callHost e' callback => cases callback <;> first | rfl | cases hx
    all_goals rfl
  have h5 := hz (announces e) fun x hx => by cases x <;> first | rfl | cases hx
  have h6 := hz (stays e) fun x hx => by cases x <;> first | rfl | cases hx
  simp [plus, h1, h2, h3, h4, h5, h6]

end Account

namespace Books

/-- What the books say of one executor. -/
def account (b : Books n) (e : Fin n) : Account where
  phase := b.phase
  stage := b.stage e
  unloaded := b.unloaded e
  marks := b.marks e
  queued := b.queue.countP (·.executor = e)
  running := b.running.count e
  entering := b.todo.countP (enters e)
  leaving := b.todo.countP (leaves e)
  finishing := b.todo.countP (finishes e)
  calling := b.todo.countP (tells e)
  announcing := b.todo.countP (announces e)
  staying := b.todo.countP (stays e) + b.current.count (some e)

/-- What a thread has to do next is on the accounts. -/
theorem account_replace {b : Books n} {t : ThreadId} {rest : List (Instr n)}
    (h : b.codes[t]? = some rest) (next : List (Instr n)) (e : Fin n) :
    ({ b with codes := b.codes.set t (next ++ rest) } : Books n).account e =
      (b.account e).plus e next := by
  have hcount : ∀ p : Instr n → Bool, (b.codes.set t (next ++ rest)).flatten.countP p =
      b.codes.flatten.countP p + next.countP p := by
    intro p
    have := countP_flatten_set p h (next ++ rest)
    rw [List.countP_append] at this
    omega
  simp only [account, Account.plus, todo, hcount, Account.mk.injEq, true_and]
  omega

variable {b b' : Books n} {next : List (Instr n)}

/-! ## Who runs -/

/-- Whoever is on a worker, or about to end a stay, runs. -/
theorem stays_le_running {e : Fin n} (hp : (b.account e).Placed) :
    b.todo.countP (stays e) + b.current.count (some e) ≤ b.running.count e := hp.staying

theorem mem_running_of_stays {e : Fin n} (hp : (b.account e).Placed) {i : Instr n} (hi : i ∈ b.todo)
    (hs : stays e i = true) : e ∈ b.running := by
  have hpos : 0 < b.todo.countP (stays e) := List.countP_pos_iff.2 ⟨_, hi, hs⟩
  have hstay := stays_le_running hp
  exact List.count_pos_iff.1 (by omega)

theorem mem_running_of_current {e : Fin n} (hp : (b.account e).Placed) {w : WorkerId}
    (hw : b.current[w]? = some (some e)) : e ∈ b.running := by
  have hpos : 0 < b.current.count (some e) := List.count_pos_iff.2 (List.mem_of_getElem? hw)
  have hstay := stays_le_running hp
  exact List.count_pos_iff.1 (by omega)

/-- Nobody runs twice. -/
theorem running_le_one {e : Fin n} (hp : (b.account e).Placed) : b.running.count e ≤ 1 :=
  Nat.le_trans (Nat.le_add_left ..) hp.single

theorem running_nodup (hp : ∀ e, (b.account e).Placed) : b.running.Nodup :=
  List.nodup_iff_count.2 fun e => running_le_one (hp e)

/-! ## What an instruction moves -/

theorem submit_move {e : Fin n} (he : (Instr.call (.submit e)).Effect b b' next) (e' : Fin n) :
    ((b.account e').plus e' [.call (.submit e)]).Move ((b'.account e').plus e' next) := by
  rw [Account.plus_plain _ e' (by simp [isPlain])]
  rcases he with ⟨hs, rfl, rfl⟩ | ⟨hs, rfl, rfl⟩
  · by_cases h : e' = e
    · subst h
      have hb : ((b.setStage e' .queued).account e').plus e' [.enqueue e'] =
          { b.account e' with stage := .queued, entering := (b.account e').entering + 1 } := by
        simp [account, Account.plus, todo]
      rw [hb]
      exact .submit _ hs
    · have hb : ((b.setStage e .queued).account e').plus e' [.enqueue e] = b.account e' := by
        simp [account, Account.plus, todo, h, Ne.symm h]
      rw [hb]
      exact .rest _
  · rw [Account.plus_nil]
    by_cases h : e' = e
    · subst h
      have hb : ((b.setStage e' (b.stage e').submitted).mark e' .accepted).account e' =
          { b.account e' with
            stage := (b.account e').stage.submitted
            marks := (b.account e').marks ++ [.accepted] } := by
        simp [account, todo]
      rw [hb]
      exact .resubmit _ hs
    · have hb : ((b.setStage e (b.stage e).submitted).mark e .accepted).account e' =
          b.account e' := by
        simp [account, todo, h]
      rw [hb]
      exact .rest _

theorem unload_move {e : Fin n} (he : (Instr.call (.unload e)).Effect b b' next) (e' : Fin n) :
    ((b.account e').plus e' [.call (.unload e)]).Move ((b'.account e').plus e' next) := by
  rw [Account.plus_plain _ e' (by simp [isPlain])]
  obtain ⟨rfl, hnext⟩ := he
  by_cases h : e' = e
  · subst h
    subst hnext
    have hm := Account.Move.unload (b.account e')
    cases hs : b.stage e' <;> simpa [account, Account.plus, todo, hs] using hm
  · have hb : ((b.setStage e .done).account e').plus e' next = b.account e' := by
      subst hnext
      cases b.stage e <;> simp [account, Account.plus, todo, h, Ne.symm h]
    rw [hb]
    exact .rest _

theorem countP_insert (p : Entry n → Bool) (x : Entry n) (l : List (Entry n)) :
    (Entry.insert x l).countP p = l.countP p + if p x then 1 else 0 := by
  induction l with
  | nil => simp [Entry.insert]
  | cons y l ih =>
    unfold Entry.insert
    split
    · simp [List.countP_cons]
    · simp only [List.countP_cons, ih]
      omega

theorem Charged.account {l : List (Fin n)} (h : Charged l b b') (e : Fin n) :
    b'.account e = b.account e := by
  obtain ⟨runtime, rfl, -⟩ := h.eq
  rfl

theorem Hires.account (h : b.Hires b') (e : Fin n) : b'.account e = b.account e := by
  induction h with
  | refl => rfl
  | worker _ ih =>
    rw [ih]
    simp [Books.account, todo, hireWorker, List.count_append]
  | watchdog _ ih =>
    rw [ih]
    simp [Books.account, todo, hireWatchdog]

theorem enqueue_move {e : Fin n} (he : (Instr.enqueue e).Effect b b' next) (e' : Fin n) :
    ((b.account e').plus e' [.enqueue e]).Move ((b'.account e').plus e' next) := by
  have hplus : e' ≠ e → (b.account e').plus e' [.enqueue e] = b.account e' := fun h => by
    simp [Account.plus, Ne.symm h]
  have hself : (b.account e).plus e [.enqueue e] =
      { b.account e with entering := (b.account e).entering + 1 } := by simp [Account.plus]
  rcases he with ⟨rfl, rfl⟩ | ⟨hs, rfl, rfl⟩ | ⟨⟨hired, c, arrival, hh, hc, -, hs, rfl⟩, rfl⟩
  · have hw : (b'.account e').plus e' [.withdraw e] = (b'.account e').plus e' [.enqueue e] := by
      simp [Account.plus]
    rw [hw]
    exact .rest _
  · rw [Account.plus_nil]
    by_cases h : e' = e
    · subst h
      have hb : (b.mark e' .accepted).account e' =
          { b.account e' with marks := (b.account e').marks ++ [.accepted] } := by
        simp [account, todo]
      rw [hself, hb]
      exact .pass _ hs
    · have hb : (b.mark e .accepted).account e' = b.account e' := by simp [account, todo, h]
      rw [hplus h, hb]
      exact .rest _
  · rw [Account.plus_nil]
    have hacc : ∀ e', c.account e' = b.account e' := fun e' => by rw [hc.account, hh.account]
    by_cases h : e' = e
    · subst h
      have hb : ((c.push e' arrival).mark e' .accepted).account e' =
          { b.account e' with
            queued := (b.account e').queued + 1
            marks := (b.account e').marks ++ [.pushed, .accepted] } := by
        rw [← hacc]
        simp [account, todo, countP_insert]
      rw [hself, hb]
      exact .push _ hs
    · have hb : ((c.push e arrival).mark e .accepted).account e' = b.account e' := by
        rw [← hacc]
        simp [account, todo, countP_insert, h, Ne.symm h]
      rw [hplus h, hb]
      exact .rest _

theorem withdraw_move {e : Fin n} (he : (Instr.withdraw e).Effect b b' next) (e' : Fin n) :
    ((b.account e').plus e' [.withdraw e]).Move ((b'.account e').plus e' next) := by
  obtain ⟨rfl, rfl⟩ := he
  rw [Account.plus_nil]
  by_cases h : e' = e
  · subst h
    have hm := Account.Move.refuse (b.account e')
    by_cases hs : b.stage e' = .queued <;> simpa [account, Account.plus, todo, hs] using hm
  · have hb : ((if b.stage e = .queued then b.setStage e .idle else b).mark e .refused).account e' =
        b.account e' := by
      split <;> simp [account, todo, h]
    have hp : (b.account e').plus e' [.withdraw e] = b.account e' := by
      simp [Account.plus, Ne.symm h]
    rw [hb, hp]
    exact .rest _

theorem dequeue_move {e : Fin n} (he : (Instr.dequeue e).Effect b b' next) (e' : Fin n) :
    ((b.account e').plus e' [.dequeue e]).Move ((b'.account e').plus e' next) := by
  obtain ⟨rfl, rfl⟩ := he
  rw [Account.plus_nil]
  by_cases h : e' = e
  · subst h
    have hm := Account.Move.leave (b.account e')
    have hz : (b.queue.filter (·.executor != e')).countP (·.executor = e') = 0 := by
      simp [List.countP_eq_zero]
    simpa [account, Account.plus, todo, hz] using hm
  · have hk : (b.queue.filter (·.executor != e)).countP (·.executor = e') =
        b.queue.countP (·.executor = e') := by
      rw [List.countP_filter]
      refine List.countP_congr fun x _ => ?_
      simp
      rintro rfl
      exact h
    have hp : (b.account e').plus e' [.dequeue e] = b.account e' := by
      simp [Account.plus, Ne.symm h]
    have hb : ({ b with queue := b.queue.filter (·.executor != e) } : Books n).account e' =
        b.account e' := by
      simp [account, todo, hk]
    rw [hb, hp]
    exact .rest _

theorem finishUnload_move {e : Fin n} (he : (Instr.finishUnload e).Effect b b' next) (e' : Fin n) :
    ((b.account e').plus e' [.finishUnload e]).Move ((b'.account e').plus e' next) := by
  by_cases h : e' = e
  · subst h
    rcases he with ⟨hu, rfl, rfl⟩ | ⟨hu, rfl, rfl⟩
    · have hm := Account.Move.refinish (b'.account e') hu
      simpa [account, Account.plus, todo] using hm
    · have hm := Account.Move.finish (b.account e') hu
      simpa [account, Account.plus, todo] using hm
  · have hb : (b'.account e').plus e' next = b.account e' := by
      rcases he with ⟨-, rfl, rfl⟩ | ⟨-, rfl, rfl⟩
      · simp [Account.plus]
      · simp [account, Account.plus, todo, h, Ne.symm h]
    have hp : (b.account e').plus e' [.finishUnload e] = b.account e' := by
      simp [Account.plus, Ne.symm h]
    rw [hb, hp]
    exact .rest _

theorem callHost_move {e : Fin n} (he : (Instr.callHost e .unload).Effect b b' next) (e' : Fin n) :
    ((b.account e').plus e' [.callHost e .unload]).Move ((b'.account e').plus e' next) := by
  obtain ⟨rfl, rfl⟩ := he
  rw [Account.plus_nil]
  by_cases h : e' = e
  · subst h
    have hm := Account.Move.call (b.account e')
    simpa [account, Account.plus, todo] using hm
  · have hb : (b.mark e .unloaded).account e' = b.account e' := by simp [account, todo, h]
    have hp : (b.account e').plus e' [.callHost e .unload] = b.account e' := by
      simp [Account.plus, Ne.symm h]
    rw [hb, hp]
    exact .rest _

theorem announce_move {e : Fin n} (he : (Instr.announce e).Effect b b' next)
    (hu : .unloaded ∈ b.marks e) (e' : Fin n) :
    ((b.account e').plus e' [.announce e]).Move ((b'.account e').plus e' next) := by
  obtain ⟨rfl, rfl⟩ := he
  rw [Account.plus_nil]
  by_cases h : e' = e
  · subst h
    have hm := Account.Move.announce (b.account e') hu
    simpa [account, Account.plus, todo] using hm
  · have hb : (b.mark e .announced).account e' = b.account e' := by simp [account, todo, h]
    have hp : (b.account e').plus e' [.announce e] = b.account e' := by
      simp [Account.plus, Ne.symm h]
    rw [hb, hp]
    exact .rest _

/-- A worker that looks for an executor. -/
theorem take_move {o : Option (Fin n)} (h : b.Takes b' o) (w : WorkerId) (e' : Fin n) :
    (b.account e').Move ((b'.account e').plus e' (match o with
      | some e => [.openSlice w e]
      | none => [])) := by
  cases h with
  | found skipped head rest faults hq hs hf hh =>
    have hskip : b.stage e' = .queued → skipped.countP (·.executor = e') = 0 := by
      intro he
      rw [List.countP_eq_zero]
      intro q hq' heq
      exact hs q hq' (by rwa [of_decide_eq_true heq])
    by_cases h : e' = head.executor
    · subst h
      have hz := hskip hh
      have hm := Account.Move.take { b.account head.executor with
        queued := rest.countP (·.executor = head.executor) } hh
      simpa [account, Account.plus, todo, hq, hz] using hm
    · have hb : (b.account e').queued = skipped.countP (·.executor = e') +
          rest.countP (·.executor = e') := by
        simp [account, hq, Ne.symm h]
      have ha : ((({ b with
            queue := rest
            running := b.running ++ [head.executor]
            faults := b.faults ++ faults }.setStage head.executor .running).mark
              head.executor .taken).account e').plus e' [.openSlice w head.executor] =
          { b.account e' with queued := rest.countP (·.executor = e') } := by
        simp [account, Account.plus, todo, h, Ne.symm h]
      simp only [ha]
      by_cases he : b.stage e' = .queued
      · have hz : rest.countP (·.executor = e') = (b.account e').queued := by rw [hb, hskip he, Nat.zero_add]
        rw [hz]
        exact .rest _
      · exact .skip _ _ he (by omega)
  | nothing faults hs hf =>
    have ha : (({ b with queue := [], faults := b.faults ++ faults } : Books n).account e').plus e' [] =
        { b.account e' with queued := 0 } := by
      simp [account, Account.plus, todo]
    simp only [ha]
    by_cases he : b.stage e' = .queued
    · have hz : (b.account e').queued = 0 := by
        show b.queue.countP _ = 0
        rw [List.countP_eq_zero]
        intro q hq' heq
        exact hs q hq' (by rwa [of_decide_eq_true heq])
      rw [← hz]
      exact .rest _
    · exact .skip _ 0 he (Nat.zero_le _)

/-- What a published slice adds to the stays of an executor. -/
theorem count_publish (current : List (Option (Fin n))) (w : WorkerId) (e e' : Fin n) :
    (current.set w (some e)).count (some e') ≤ current.count (some e') + if e = e' then 1 else 0 := by
  by_cases hw : w < current.length
  · rw [List.count_set hw]
    simp only [beq_iff_eq, Option.some.injEq]
    omega
  · rw [List.set_eq_of_length_le (Nat.le_of_not_lt hw)]
    omega

/-- What a slice that is withdrawn takes from the stays of an executor. -/
theorem count_withdraw {current : List (Option (Fin n))} {w : WorkerId} {e : Fin n}
    (h : current[w]? = some (some e)) (e' : Fin n) :
    (current.set w none).count (some e') + (if e = e' then 1 else 0) = current.count (some e') := by
  obtain ⟨hw, hget⟩ := List.getElem?_eq_some_iff.1 h
  rw [List.count_set hw, hget]
  by_cases he : e = e'
  · subst he
    have : 0 < current.count (some e) := List.count_pos_iff.2 (List.mem_of_getElem? h)
    simp
    omega
  · simp [he]

/-- A worker without a published slice has none to withdraw. -/
theorem count_withdraw_none {current : List (Option (Fin n))} {w : WorkerId}
    (h : ∀ e, current[w]? ≠ some (some e)) (e' : Fin n) :
    (current.set w none).count (some e') = current.count (some e') := by
  by_cases hw : w < current.length
  · have hne : current[w] ≠ some e' := fun he => h e' (by rw [List.getElem?_eq_getElem hw, he])
    rw [List.count_set hw]
    simp [hne]
  · rw [List.set_eq_of_length_le (Nat.le_of_not_lt hw)]

theorem publish_move {w : WorkerId} {e : Fin n} {a : UInt64}
    (he : (Instr.publish w e a).Effect b b' next) (e' : Fin n) :
    ((b.account e').plus e' [.publish w e a]).Move ((b'.account e').plus e' next) := by
  obtain ⟨rfl, rfl⟩ := he
  have hle := count_publish b.current w e e'
  have hm := Account.Move.drift ((b.account e').plus e' [.publish w e a]) b.phase
    (b.todo.countP (stays e') + (b.current.set w (some e)).count (some e')) id (by
      simp [account, Account.plus]
      omega)
  simpa [account, Account.plus, todo] using hm

/-- The stay of a slice goes on after it is withdrawn. -/
theorem account_withdraw {w : WorkerId} {e : Fin n} (h : b.current[w]? = some (some e))
    (slice : SliceRecord) (e' : Fin n) :
    (({ b with current := b.current.set w none } : Books n).account e').plus e' [.resetTimer e slice] =
      b.account e' := by
  have hc := count_withdraw h e'
  simp only [account, Account.plus, todo, Account.mk.injEq]
  simp
  omega

theorem account_withdraw_none {w : WorkerId} (h : ∀ e, b.current[w]? ≠ some (some e)) (e' : Fin n) :
    (({ b with current := b.current.set w none } : Books n).account e').plus e' [] = b.account e' := by
  have hc := count_withdraw_none h e'
  simp [account, Account.plus, todo, hc]

theorem closeSlice_move {w : WorkerId} {e : Fin n} {a : UInt64}
    (he : (Instr.closeSlice w e a).Effect b b' next)
    (hc : ∀ e', b.current[w]? = some (some e') → e' = e) (e' : Fin n) :
    ((b.account e').plus e' [.closeSlice w e a]).Move ((b'.account e').plus e' next) := by
  have hp : (b.account e').plus e' [.closeSlice w e a] = b.account e' := by simp [Account.plus]
  rw [hp]
  obtain ⟨rfl, ⟨e₁, slice, hcur, rfl⟩ | ⟨hcur, rfl⟩⟩ := he
  · obtain rfl := hc e₁ hcur
    rw [account_withdraw hcur]
    exact .rest _
  · rw [account_withdraw_none hcur]
    exact .rest _

theorem takeAbandoned_move {w : WorkerId} (he : (Instr.takeAbandoned w).Effect b b' next) (e' : Fin n) :
    ((b.account e').plus e' [.takeAbandoned w]).Move ((b'.account e').plus e' next) := by
  have hp : (b.account e').plus e' [.takeAbandoned w] = b.account e' := by simp [Account.plus]
  rw [hp]
  obtain ⟨rfl, ⟨e, hcur, rfl⟩ | ⟨hcur, rfl⟩⟩ := he
  · rw [account_withdraw hcur]
    exact .rest _
  · rw [account_withdraw_none hcur]
    exact .rest _

theorem settle_move {e : Fin n} (he : (Instr.settle e).Effect b b' next) (e' : Fin n) :
    ((b.account e').plus e' [.settle e]).Move ((b'.account e').plus e' next) := by
  obtain ⟨⟨c, faults, arrival, hc, -, rfl⟩, rfl⟩ := he
  obtain ⟨runtime, rfl, -⟩ := hc.eq
  by_cases h : e' = e
  · subst h
    have hz : (b.running.filter (· != e')).count e' = 0 := by simp [List.count_eq_zero]
    by_cases hr : b.stage e' = .repeating ∧ b.phase ≠ .closed
    · have hm := Account.Move.requeue (b.account e') hr.1 hr.2
      rw [if_pos hr]
      simpa [account, Account.plus, todo, hz, hr.1, countP_insert, Stage.sliceEnded] using hm
    · have hm := Account.Move.settle (b.account e') hr
      rw [if_neg hr]
      by_cases hd : b.stage e' = .done <;> simpa [account, Account.plus, todo, hz, hd] using hm
  · have hk : (b.running.filter (· != e)).count e' = b.running.count e' :=
      List.count_filter (by simpa using h)
    have hp : (b.account e').plus e' [.settle e] = b.account e' := by
      simp [Account.plus, Ne.symm h]
    rw [hp]
    have hb : ∀ b'' : Books n, b''.account e' = b.account e' →
        (b''.account e').plus e' (if b.stage e = .done then [.finishUnload e] else []) = b.account e' := by
      intro b'' hb''
      rw [hb'']
      split <;> simp [Account.plus, Ne.symm h]
    rw [hb]
    · exact .rest _
    · split <;> simp [account, todo, hk, h, countP_insert, Ne.symm h]

theorem quiet_move {i : Instr n} (hq : i.isQuiet = true) (hl : i.Leads next) (e' : Fin n) :
    ((b.account e').plus e' [i]).Move ((b.account e').plus e' next) := by
  by_cases hp : i.isPlain = true
  · have hn : ∀ x ∈ next, x.isPlain = true := by
      cases hl.turns with
      | plain h => exact h
      | _ => first | exact absurd hp Bool.false_ne_true | exact absurd hq Bool.false_ne_true
    rw [Account.plus_plain _ e' (by simpa using hp), Account.plus_plain _ e' hn]
    exact .rest _
  · have hrest : (b.account e').plus e' next = (b.account e').plus e' [i] →
        ((b.account e').plus e' [i]).Move ((b.account e').plus e' next) := fun h => h ▸ .rest _
    cases i
    case nextSlice w =>
      rcases hl with rfl | rfl | rfl <;> exact hrest (by simp [Account.plus])
    case openSlice w e => rcases hl with rfl | rfl <;> exact hrest (by simp [Account.plus])
    case noteAllocated w e =>
      rcases hl with rfl | ⟨a, rfl⟩
      · have hm := Account.Move.drift ((b.account e').plus e' [.noteAllocated w e]) b.phase
          (b.account e').staying id (by simp [Account.plus])
        simpa [account, Account.plus, todo] using hm
      · exact hrest (by simp [Account.plus])
    case callWork w e => cases hl; exact hrest (by simp [Account.plus])
    case work w e =>
      rcases hl with ⟨j, hj, rfl⟩ | rfl | ⟨result, rfl⟩
      · rcases hj with ⟨c, rfl⟩ | ⟨deadline, rfl⟩ | ⟨o, rfl⟩ <;> exact hrest (by simp [Account.plus])
      · exact hrest rfl
      · exact hrest (by simp [Account.plus])
    case resetTimer e slice =>
      obtain ⟨accounts, ha, rfl⟩ := hl
      have hz : ∀ x ∈ accounts, x.isPlain = true := by
        intro x hx
        rcases ha x hx with ⟨o, rfl⟩ | ⟨before, after, rfl⟩ <;> rfl
      have happ : (b.account e').plus e' (accounts ++ [.settle e]) =
          ((b.account e').plus e' accounts).plus e' [.settle e] := by
        simp [Account.plus, Nat.add_assoc]
      have hs : (b.account e').plus e' [.settle e] = (b.account e').plus e' [.resetTimer e slice] := by
        simp [Account.plus]
      rw [happ, Account.plus_plain _ e' hz, hs]
      exact .rest _
    case callHost e callback => cases callback <;> first | (cases hq; done) | exact absurd rfl hp
    all_goals first | (cases hq; done) | exact absurd rfl hp

/-- A worker that looks for an executor goes on with it, or without one. -/
theorem seek_move {i : Instr n} {w : WorkerId} {e' : Fin n} (hi : (b.account e').plus e' [i] = b.account e')
    (he : (∃ e, b.Takes b' (some e) ∧ next = [.openSlice w e]) ∨
      (b.Takes b' none ∧ (next = [.retire w] ∨ next = [.awaitWork w]))) :
    ((b.account e').plus e' [i]).Move ((b'.account e').plus e' next) := by
  rw [hi]
  rcases he with ⟨e, ht, rfl⟩ | ⟨ht, hnext⟩
  · exact take_move ht w e'
  · have hn : (b'.account e').plus e' next = (b'.account e').plus e' [] := by
      rcases hnext with rfl | rfl <;> simp [Account.plus]
    rw [hn]
    exact take_move ht w e'

/-- The scheduler comes nearer to its end. -/
theorem phase_move (b : Books n) (phase : Phase) (e' : Fin n) :
    (b.account e').Move (({ b with phase := b.phase.later phase } : Books n).account e') := by
  refine .drift (b.account e') (b.phase.later phase) (b.account e').staying (fun h => ?_) (Nat.le_refl _)
  have hc : b.phase = .closed := h
  rw [hc]
  cases phase <;> rfl

/-- What an instruction does is a move of each account. -/
theorem effect_move {i : Instr n} (he : i.Effect b b' next) (hl : i.Leads next)
    (hclose : ∀ w e a, i = .closeSlice w e a → ∀ e', b.current[w]? = some (some e') → e' = e)
    (hann : ∀ e, i = .announce e → .unloaded ∈ b.marks e) (e' : Fin n) :
    ((b.account e').plus e' [i]).Move ((b'.account e').plus e' next) := by
  by_cases hq : i.isQuiet = true
  · have hb : b' = b := by
      cases i
      case call c => cases c <;> first | exact he | cases hq
      case callHost e callback => cases callback <;> first | exact he | cases hq
      all_goals first | exact he | cases hq
    subst hb
    exact quiet_move hq hl e'
  cases i
  case call c =>
    cases c
    case submit e => exact submit_move he e'
    case unload e => exact unload_move he e'
    case stop timeout =>
      obtain ⟨rfl, rfl⟩ := he
      rw [Account.plus_plain _ e' (by simp [isPlain]), Account.plus_plain _ e' (by simp [isPlain])]
      exact phase_move b .stopping e'
    all_goals exact absurd rfl hq
  case enqueue e => exact enqueue_move he e'
  case withdraw e => exact withdraw_move he e'
  case dequeue e => exact dequeue_move he e'
  case finishUnload e => exact finishUnload_move he e'
  case callHost e callback =>
    cases callback
    case unload => exact callHost_move he e'
    all_goals exact absurd rfl hq
  case announce e => exact announce_move he (hann e rfl) e'
  case seekWork w => exact seek_move (by simp [Account.plus]) he
  case awaitWork w => exact seek_move (by simp [Account.plus]) he
  case publish w e a => exact publish_move he e'
  case closeSlice w e a => exact closeSlice_move he (hclose w e a rfl) e'
  case settle e => exact settle_move he e'
  case retire w =>
    rw [Account.plus_plain _ e' (by simp [isPlain])]
    rcases he with ⟨-, rfl, rfl⟩ | ⟨-, rfl, rfl⟩
    · have hb : (({ b with live := b.live.set w false } : Books n).account e').plus e'
          [.takeAbandoned w, .decideRespawn w] = b.account e' := by
        simp [account, Account.plus, todo]
      rw [hb]
      exact .rest _
    · rw [Account.plus_nil]
      exact .rest _
  case takeAbandoned w => exact takeAbandoned_move he e'
  case vacate w respawn =>
    obtain ⟨hh, rfl⟩ := he
    rw [hh.account, Account.plus_plain _ e' (by simp [isPlain]), Account.plus_nil]
    exact .rest _
  case close =>
    obtain ⟨rfl, rfl⟩ := he
    rw [Account.plus_plain _ e' (by simp [isPlain]), Account.plus_plain _ e' (by simp [isPlain])]
    exact phase_move b .closed e'
  all_goals exact absurd rfl hq

/-- The slice that a worker closes is the one that it has published, if it still has. -/
theorem Orderly.closes_own (ho : b.Orderly) {w : WorkerId} {e e' : Fin n} {a : UInt64}
    (hm : .closeSlice w e a ∈ b.todo) (hc : b.current[w]? = some (some e')) : e' = e :=
  closes_unique (ho.one_slice w) (ho.staffed.published w e' hc)
    (List.countP_pos_iff.2 ⟨_, hm, by simp⟩)

/-- The metrics context is told of an unload only after the host. -/
theorem Orderly.told (ho : b.Orderly) {t : ThreadId} {e : Fin n} {rest : List (Instr n)}
    (ht : b.codes[t]? = some (.announce e :: rest)) : .unloaded ∈ b.marks e := by
  have hcode := List.mem_of_getElem? ht
  rcases ho.announced _ hcode e (List.mem_cons_self ..) with hc | hu
  · have hc := List.mem_of_ne_of_mem (by simp) hc
    have hf := (List.pairwise_cons.1 (ho.inOrder _ hcode).follows).1 _ hc
    simp [Follows, rank] at hf
  · exact hu

/-- What a failing observation tears down is at most a stay. -/
theorem tear_move (ho : b.Orderly) {t : ThreadId} {e : Fin n} {o : Metrics.Observation}
    {rest : List (Instr n)} (ht : b.codes[t]? = some (.account e o :: rest)) (e' : Fin n) :
    (b.account e').Move (({ b with codes := b.codes.set t [] } : Books n).account e') := by
  have hf := (List.pairwise_cons.1 (ho.inOrder _ (List.mem_of_getElem? ht)).follows).1
  have hcount : ∀ p : Instr n → Bool, p (.account e o) = false →
      (b.codes.set t []).flatten.countP p + rest.countP p = b.codes.flatten.countP p := by
    intro p hp
    have hc := countP_flatten_set p ht []
    rw [List.countP_cons_of_neg (by simp [hp])] at hc
    exact hc
  have hkeep : ∀ p : Instr n → Bool, (∀ j, p j = true → j.rank < 4) → p (.account e o) = false →
      (b.codes.set t []).flatten.countP p = b.codes.flatten.countP p := by
    intro p hp hpa
    have hc := hcount p hpa
    rw [countP_of_follows hf hp] at hc
    exact hc
  have hm := Account.Move.drift (b.account e') b.phase
    ((b.codes.set t []).flatten.countP (stays e') + b.current.count (some e')) id (by
      have hc := hcount (stays e') rfl
      simp only [account, todo]
      omega)
  have h1 := hkeep (enters e') (fun j hj => by rw [rank_of_enters hj]; decide) rfl
  have h2 := hkeep (leaves e') (fun j hj => by rw [rank_of_leaves hj]; decide) rfl
  have h3 := hkeep (finishes e') (fun j hj => by rw [rank_of_finishes hj]; decide) rfl
  have h4 := hkeep (tells e') (fun j hj => by rw [rank_of_tells hj]; decide) rfl
  have h5 := hkeep (announces e') (fun j hj => by rw [rank_of_announces hj]; decide) rfl
  have ha : ({ b with codes := b.codes.set t [] } : Books n).account e' =
      { b.account e' with
        phase := b.phase
        staying := (b.codes.set t []).flatten.countP (stays e') + b.current.count (some e') } := by
    simp only [account, todo, h1, h2, h3, h4, h5]
  rw [ha]
  exact hm

/-- The next instruction of a thread is on the accounts. -/
theorem account_head {t : ThreadId} {i : Instr n} {rest : List (Instr n)}
    (ht : b.codes[t]? = some (i :: rest)) (e : Fin n) :
    b.account e = (({ b with codes := b.codes.set t rest } : Books n).account e).plus e [i] := by
  obtain ⟨hlt, hget⟩ := List.getElem?_eq_some_iff.1 ht
  have hset : b.codes.set t (i :: rest) = b.codes := by
    rw [← hget, List.set_getElem_self]
  rw [← account_replace (List.getElem?_set_self hlt), List.singleton_append, List.set_set, hset]

/-- A move of the books is a move of each account. -/
theorem Moves.account (ho : b.Orderly) (h : b.Moves b') (e : Fin n) :
    (b.account e).Move (b'.account e) := by
  cases h with
  | rest => exact .rest _
  | arrive c =>
    have hb : ({ b with codes := b.codes ++ [[.call c]] } : Books n).account e = b.account e := by
      simp [Books.account, todo]
    rw [hb]
    exact .rest _
  | step t i rest next b' ht he hl =>
    have hrest : ({ b with codes := b.codes.set t rest } : Books n).codes[t]? = some rest :=
      List.getElem?_set_self (List.getElem?_eq_some_iff.1 ht).1
    rw [account_head ht, account_replace (he.codes hrest)]
    refine effect_move he hl ?_ ?_ e
    · rintro w e₁ a rfl e₂ hc
      exact ho.closes_own (mem_todo ht) hc
    · rintro e₁ rfl
      exact ho.told ht
  | tear t e₁ o rest ht => exact tear_move ho ht e

theorem account_start (e : Fin n) : (start : Books n).account e = .start := by
  simp [account, start, todo, Account.start]

end Books

namespace Pool

/-- The threads are in order after every run. -/
theorem run_orderly (config : SchedulerConfig) (context : Metrics.Context) (log : LogFilter)
    (hosts : Vector Host n) (actions : List (Action n)) :
    ((create config context log hosts).run actions).books.Orderly :=
  run_invariant .start (fun _ _ h hm => h.moves hm) config context log hosts actions

/-- What holds of the books at the start and is kept by every move holds after every run, where threads are in
order and the places of executors agree with their stages. -/
theorem run_books {P : Books n → Prop} (hstart : P .start)
    (hmoves : ∀ b b' : Books n, b.Orderly → (∀ e, (b.account e).Placed) → P b → b.Moves b' → P b')
    (config : SchedulerConfig) (context : Metrics.Context) (log : LogFilter) (hosts : Vector Host n)
    (actions : List (Action n)) : P ((create config context log hosts).run actions).books := by
  have h := run_invariant (n := n) (P := fun b => b.Orderly ∧ (∀ e, (b.account e).Placed) ∧ P b)
    ⟨.start, fun e => by rw [Books.account_start]; exact .start, hstart⟩
    (fun b b' ⟨ho, hp, hb⟩ hm =>
      ⟨ho.moves hm, fun e => (hp e).move (hm.account ho e), hmoves b b' ho hp hb hm⟩)
    config context log hosts actions
  exact h.2.2

/-- What holds of the account of an executor that was never submitted and is kept by every move holds of the
account of each executor after every run. -/
theorem run_account {P : Account → Prop} (hstart : P .start)
    (hmove : ∀ a a' : Account, a.Placed → P a → a.Move a' → P a') (config : SchedulerConfig)
    (context : Metrics.Context) (log : LogFilter) (hosts : Vector Host n) (actions : List (Action n))
    (e : Fin n) : P (((create config context log hosts).run actions).books.account e) :=
  run_books (P := fun b => ∀ e, P (b.account e))
    (fun e => by rw [Books.account_start]; exact hstart)
    (fun _ _ ho hp ha hm e => hmove _ _ (hp e) (ha e) (hm.account ho e))
    config context log hosts actions e

/-- The places of each executor agree with its stage after every run. -/
theorem run_placed (config : SchedulerConfig) (context : Metrics.Context) (log : LogFilter)
    (hosts : Vector Host n) (actions : List (Action n)) (e : Fin n) :
    (((create config context log hosts).run actions).books.account e).Placed :=
  run_account .start (fun _ _ h _ hm => h.move hm) config context log hosts actions e

/-! ## What is under way, and what happened -/

/-- How many instructions of a kind the threads still have to carry out. -/
def pending (s : Pool n) (p : Instr n → Bool) : Nat := (s.threads.flatMap (·.code)).countP p

/-- How often something happened to an executor. -/
def times (s : Pool n) (e : Fin n) (m : Mark) : Nat :=
  s.history.toList.countP fun v => v.mark? e = some m

theorem times_eq (s : Pool n) (e : Fin n) (m : Mark) :
    s.times e m = (s.books.account e).marks.count m :=
  (Event.count_marks s.history.toList e m).symm

end Pool

end FairShare.Scheduler
