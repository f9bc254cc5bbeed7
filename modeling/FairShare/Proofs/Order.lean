import FairShare.Proofs.Moves

/-!
# The order of instructions

What a thread still has to do is in an order: the end of an unload comes before everything else, what happens
within a slice before the end of that slice, the rest of what a round does after that, and the next round of a
worker comes last. So a worker's thread is at one point of one slice, and what the pool says about the
workers agrees with what their threads are about to do: a published slice is still to be closed, and a slice
that is still to be closed is published unless its worker was retired.
-/

namespace FairShare.Scheduler

variable {n : Nat}

namespace Instr

/-! ## Ranks -/

/-- The place of an instruction in the order. -/
def rank : Instr n → Nat
  | .dequeue _ | .callHost _ .unload => 0
  | .enqueue _ | .withdraw _ | .finishUnload _ | .announce _ => 1
  | .seekWork _ | .awaitWork _ | .openSlice _ _ | .noteAllocated _ _ | .publish _ _ _
  | .closeSlice _ _ _ => 3
  | .resetTimer _ _ | .account _ _ | .warnAllocation _ _ _ | .settle _ | .retire _ | .takeAbandoned _
  | .decideRespawn _ | .vacate _ _ | .watch | .beginWatch | .watching _ | .inspect | .checkWorker _
  | .measure _ _ | .raise _ _ _ | .press _ _ _ => 4
  | .nextSlice _ => 5
  | _ => 2

/-- Whether an instruction may come after another one. -/
def Follows (i j : Instr n) : Prop :=
  i.rank < j.rank ∨ i.rank = j.rank ∧ (i.rank = 2 ∨ i.rank = 4)

/-- Whether an instruction may take the place of another one. -/
def Replaces (x i : Instr n) : Prop :=
  x.rank ≤ i.rank ∨ i.rank = 3 ∧ x.rank = 4

theorem Replaces.follows {x i j : Instr n} (h : x.Replaces i) (hj : i.Follows j) : x.Follows j := by
  unfold Replaces at h
  unfold Follows at hj ⊢
  omega

theorem pairwise_follows {l : List (Instr n)} {r : Nat} (hr : r = 2 ∨ r = 4)
    (h : ∀ x ∈ l, x.rank = r) : l.Pairwise Follows :=
  List.pairwise_of_forall_mem_list fun x hx y hy => Or.inr ⟨by rw [h x hx, h y hy], by rwa [h x hx]⟩

/-- What comes next is in order, and may take the place of what it comes after. -/
theorem Leads.ranks {i : Instr n} {next : List (Instr n)} (h : i.Leads next) :
    next.Pairwise Follows ∧ ∀ x ∈ next, x.Replaces i := by
  cases i
  case call c =>
    cases c
    case submit e => rcases h with rfl | rfl <;> simp [Replaces, rank]
    case unload e => rcases h with rfl | rfl | rfl <;> simp [Follows, Replaces, rank]
    all_goals (cases h; simp [Replaces, rank])
  case enqueue e => rcases h with rfl | rfl <;> simp [Replaces, rank]
  case finishUnload e => rcases h with rfl | rfl <;> simp [Follows, Replaces, rank]
  case nextSlice w => rcases h with rfl | rfl | rfl <;> simp [Follows, Replaces, rank]
  case seekWork w => rcases h with ⟨e, rfl⟩ | rfl | rfl <;> simp [Replaces, rank]
  case awaitWork w => rcases h with ⟨e, rfl⟩ | rfl | rfl <;> simp [Replaces, rank]
  case openSlice w e => rcases h with rfl | rfl <;> simp [Follows, Replaces, rank]
  case noteAllocated w e => rcases h with rfl | ⟨allocated, rfl⟩ <;> simp [Replaces, rank]
  case publish w e allocated => cases h; simp [Follows, Replaces, rank]
  case callWork w e => cases h; simp [Replaces, rank]
  case work w e =>
    rcases h with ⟨j, hj, rfl⟩ | rfl | ⟨result, rfl⟩
    · rcases hj with ⟨c, rfl⟩ | ⟨deadline, rfl⟩ | ⟨o, rfl⟩ <;> simp [Follows, Replaces, rank]
    · simp [Replaces, rank]
    · simp [Replaces, rank]
  case sleep w deadline => rcases h with rfl | rfl <;> simp [Replaces, rank]
  case doze w deadline => rcases h with rfl | rfl <;> simp [Replaces, rank]
  case handle e result => rcases h with rfl | rfl <;> simp [Replaces, rank]
  case closeSlice w e allocated => rcases h with rfl | ⟨slice, rfl⟩ <;> simp [Replaces, rank]
  case resetTimer e slice =>
    obtain ⟨accounts, ha, rfl⟩ := h
    have hr : ∀ x ∈ accounts ++ [.settle e], x.rank = 4 := by
      intro x hx
      rcases List.mem_append.1 hx with hx | hx
      · rcases ha x hx with ⟨o, rfl⟩ | ⟨before, after, rfl⟩ <;> rfl
      · rw [List.mem_singleton.1 hx]; rfl
    exact ⟨pairwise_follows (Or.inr rfl) hr, fun x hx => Or.inl (Nat.le_of_eq (hr x hx))⟩
  case settle e => rcases h with rfl | rfl <;> simp [Replaces, rank]
  case retire w => rcases h with rfl | rfl <;> simp [Follows, Replaces, rank]
  case takeAbandoned w => rcases h with rfl | ⟨e, rfl⟩ <;> simp [Replaces, rank]
  case decideRespawn w => obtain ⟨respawn, rfl⟩ := h; simp [Replaces, rank]
  case watch => rcases h with rfl | rfl <;> simp [Replaces, rank]
  case beginWatch => obtain ⟨deadline, rfl⟩ := h; simp [Follows, Replaces, rank]
  case inspect =>
    obtain ⟨ws, rfl⟩ := h
    have hr : ∀ x ∈ ws.map (checkWorker (n := n)), x.rank = 4 := by
      intro x hx
      obtain ⟨w, -, rfl⟩ := List.mem_map.1 hx
      rfl
    exact ⟨pairwise_follows (Or.inr rfl) hr, fun x hx => Or.inl (Nat.le_of_eq (hr x hx))⟩
  case checkWorker w => rcases h with rfl | ⟨e, rfl⟩ <;> simp [Follows, Replaces, rank]
  case measure w e => rcases h with rfl | ⟨overrun, rfl⟩ <;> simp [Replaces, rank]
  case raise w e overrun => rcases h with rfl | rfl <;> simp [Follows, Replaces, rank]
  case press w e overrun => rcases h with rfl | rfl | rfl <;> simp [Follows, Replaces, rank]
  case report w e overrun => rcases h with rfl | ⟨thread, rfl⟩ <;> simp [Replaces, rank]
  case collect timeout =>
    obtain ⟨es, rfl⟩ := h
    have hr : ∀ x ∈ es.map (.call ∘ .hardAbort) ++ [.wakeWorkers, .beginStopWait timeout],
        (x : Instr n).rank = 2 := by
      intro x hx
      rcases List.mem_append.1 hx with hx | hx
      · obtain ⟨e, -, rfl⟩ := List.mem_map.1 hx
        rfl
      · simp only [List.mem_cons, List.not_mem_nil, or_false] at hx
        rcases hx with rfl | rfl <;> rfl
    exact ⟨pairwise_follows (Or.inl rfl) hr, fun x hx => Or.inl (Nat.le_of_eq (hr x hx))⟩
  case beginStopWait timeout => obtain ⟨deadline, rfl⟩ := h; simp [Replaces, rank]
  case stopWait deadline timeout => rcases h with rfl | rfl | rfl <;> simp [Replaces, rank]
  all_goals (cases h; simp [Replaces, rank])

/-! ## The instructions of a worker -/

/-- Whether an instruction begins the next round of a worker. -/
@[simp] def nexts (w : WorkerId) : Instr n → Bool
  | .nextSlice w' => w' = w
  | _ => false

/-- Whether an instruction is a point of a slice of a worker. -/
@[simp] def slices (w : WorkerId) : Instr n → Bool
  | .seekWork w' | .awaitWork w' | .openSlice w' _ | .noteAllocated w' _ | .publish w' _ _
  | .closeSlice w' _ _ => w' = w
  | _ => false

/-- Whether an instruction closes the slice of an executor on a worker. -/
@[simp] def closes (w : WorkerId) (e : Fin n) : Instr n → Bool
  | .closeSlice w' e' _ => w' = w && e' = e
  | _ => false

/-- Whether an instruction is within the work of an executor on a worker, or about to be. -/
@[simp] def works (w : WorkerId) (e : Fin n) : Instr n → Bool
  | .callWork w' e' | .work w' e' => w' = w && e' = e
  | _ => false

/-- Whether an instruction closes the slice of a worker that retires. -/
@[simp] def abandons (w : WorkerId) : Instr n → Bool
  | .takeAbandoned w' => w' = w
  | _ => false

theorem eq_of_nexts {w : WorkerId} {i : Instr n} (h : nexts w i = true) : i = .nextSlice w := by
  unfold nexts at h
  split at h
  · rw [of_decide_eq_true h]
  · cases h

theorem eq_of_closes {w : WorkerId} {e : Fin n} {i : Instr n} (h : closes w e i = true) : ∃ a, i = .closeSlice w e a := by
  unfold closes at h
  split at h
  · obtain ⟨rfl, rfl⟩ : _ ∧ _ := by simpa using h
    exact ⟨_, rfl⟩
  · cases h

theorem eq_of_abandons {w : WorkerId} {i : Instr n} (h : abandons w i = true) : i = .takeAbandoned w := by
  unfold abandons at h
  split at h
  · rw [of_decide_eq_true h]
  · cases h

/-- Whether an instruction is none that the theory keeps count of. -/
def isPlain : Instr n → Bool
  | .enqueue _ | .withdraw _ | .dequeue _ | .finishUnload _ | .callHost _ .unload | .announce _
  | .nextSlice _ | .seekWork _ | .awaitWork _ | .openSlice _ _ | .noteAllocated _ _ | .publish _ _ _
  | .callWork _ _ | .work _ _ | .closeSlice _ _ _ | .resetTimer _ _ | .settle _
  | .takeAbandoned _ => false
  | _ => true

/-- How a step can turn one instruction into others, as far as the theory keeps count of them. -/
inductive Turns : Instr n → List (Instr n) → Prop where
  | plain {i : Instr n} {next : List (Instr n)} (h : ∀ x ∈ next, x.isPlain = true) : Turns i next
  | submit (e : Fin n) : Turns (.call (.submit e)) [.enqueue e]
  | unload (e : Fin n) : Turns (.call (.unload e)) [.finishUnload e]
  | unqueue (e : Fin n) : Turns (.call (.unload e)) [.dequeue e, .finishUnload e]
  | refuse (e : Fin n) : Turns (.enqueue e) [.withdraw e]
  | tell (e : Fin n) : Turns (.finishUnload e) [.callHost e .unload, .announce e]
  | round (w : WorkerId) : Turns (.nextSlice w) [.seekWork w, .nextSlice w]
  | seek (w : WorkerId) : Turns (.seekWork w) [.awaitWork w]
  | await (w : WorkerId) : Turns (.awaitWork w) [.awaitWork w]
  | sought (w : WorkerId) (e : Fin n) : Turns (.seekWork w) [.openSlice w e]
  | awaited (w : WorkerId) (e : Fin n) : Turns (.awaitWork w) [.openSlice w e]
  | skip (w : WorkerId) (e : Fin n) : Turns (.openSlice w e) [.call (.unload e), .resetTimer e .never]
  | begin (w : WorkerId) (e : Fin n) :
    Turns (.openSlice w e) [.clearInterrupt w, .call (.startTimer e), .noteAllocated w e]
  | note (w : WorkerId) (e : Fin n) (a : UInt64) : Turns (.noteAllocated w e) [.publish w e a]
  | publish (w : WorkerId) (e : Fin n) (a : UInt64) :
    Turns (.publish w e a) [.callWork w e, .closeSlice w e a]
  | work (w : WorkerId) (e : Fin n) : Turns (.callWork w e) [.work w e]
  | within (w : WorkerId) (e : Fin n) (front : List (Instr n))
    (hf : ∀ x ∈ front, x.isPlain = true) : Turns (.work w e) (front ++ [.work w e])
  | close (w : WorkerId) (e : Fin n) (a : UInt64) (slice : SliceRecord) :
    Turns (.closeSlice w e a) [.resetTimer e slice]
  | reset (e : Fin n) (slice : SliceRecord) (accounts : List (Instr n))
    (ha : ∀ x ∈ accounts, x.isPlain = true) : Turns (.resetTimer e slice) (accounts ++ [.settle e])
  | settle (e : Fin n) : Turns (.settle e) [.finishUnload e]
  | retire (w : WorkerId) : Turns (.retire w) [.takeAbandoned w, .decideRespawn w]
  | abandon (w : WorkerId) (e : Fin n) : Turns (.takeAbandoned w) [.resetTimer e .abandoned]

theorem Turns.nil (i : Instr n) : i.Turns [] := .plain (by simp)

theorem Leads.turns {i : Instr n} {next : List (Instr n)} (h : i.Leads next) : i.Turns next := by
  cases i
  case call c =>
    cases c
    case submit e =>
      rcases h with rfl | rfl
      · exact .nil _
      · exact .submit e
    case unload e =>
      rcases h with rfl | rfl | rfl
      · exact .nil _
      · exact .unload e
      · exact .unqueue e
    all_goals cases h; exact .plain (by simp [isPlain])
  case enqueue e =>
    rcases h with rfl | rfl
    · exact .nil _
    · exact .refuse e
  case finishUnload e =>
    rcases h with rfl | rfl
    · exact .nil _
    · exact .tell e
  case nextSlice w =>
    rcases h with rfl | rfl | rfl
    · exact .nil _
    · exact .plain (by simp [isPlain])
    · exact .round w
  case seekWork w =>
    rcases h with ⟨e, rfl⟩ | rfl | rfl
    · exact .sought w e
    · exact .plain (by simp [isPlain])
    · exact .seek w
  case awaitWork w =>
    rcases h with ⟨e, rfl⟩ | rfl | rfl
    · exact .awaited w e
    · exact .plain (by simp [isPlain])
    · exact .await w
  case openSlice w e =>
    rcases h with rfl | rfl
    · exact .skip w e
    · exact .begin w e
  case noteAllocated w e =>
    rcases h with rfl | ⟨a, rfl⟩
    · exact .nil _
    · exact .note w e a
  case publish w e a => cases h; exact .publish w e a
  case callWork w e => cases h; exact .work w e
  case work w e =>
    rcases h with ⟨j, hj, rfl⟩ | rfl | ⟨result, rfl⟩
    · refine .within w e [j] ?_
      rcases hj with ⟨c, rfl⟩ | ⟨deadline, rfl⟩ | ⟨o, rfl⟩ <;> simp [isPlain]
    · exact .within w e [] (by simp)
    · exact .plain (by simp [isPlain])
  case sleep w deadline => rcases h with rfl | rfl <;> exact .plain (by simp [isPlain])
  case doze w deadline => rcases h with rfl | rfl <;> exact .plain (by simp [isPlain])
  case handle e result => rcases h with rfl | rfl <;> exact .plain (by simp [isPlain])
  case closeSlice w e a =>
    rcases h with rfl | ⟨slice, rfl⟩
    · exact .nil _
    · exact .close w e a slice
  case resetTimer e slice =>
    obtain ⟨accounts, ha, rfl⟩ := h
    refine .reset e slice accounts fun x hx => ?_
    rcases ha x hx with ⟨o, rfl⟩ | ⟨before, after, rfl⟩ <;> rfl
  case settle e =>
    rcases h with rfl | rfl
    · exact .nil _
    · exact .settle e
  case retire w =>
    rcases h with rfl | rfl
    · exact .nil _
    · exact .retire w
  case takeAbandoned w =>
    rcases h with rfl | ⟨e, rfl⟩
    · exact .nil _
    · exact .abandon w e
  case decideRespawn w => obtain ⟨respawn, rfl⟩ := h; exact .plain (by simp [isPlain])
  case watch => rcases h with rfl | rfl <;> exact .plain (by simp [isPlain])
  case beginWatch => obtain ⟨deadline, rfl⟩ := h; exact .plain (by simp [isPlain])
  case inspect => obtain ⟨ws, rfl⟩ := h; exact .plain (by simp [isPlain])
  case checkWorker w => rcases h with rfl | ⟨e, rfl⟩ <;> exact .plain (by simp [isPlain])
  case measure w e => rcases h with rfl | ⟨overrun, rfl⟩ <;> exact .plain (by simp [isPlain])
  case raise w e overrun => rcases h with rfl | rfl <;> exact .plain (by simp [isPlain])
  case press w e overrun => rcases h with rfl | rfl | rfl <;> exact .plain (by simp [isPlain])
  case report w e overrun => rcases h with rfl | ⟨thread, rfl⟩ <;> exact .plain (by simp [isPlain])
  case collect timeout =>
    obtain ⟨es, rfl⟩ := h
    refine .plain fun x hx => ?_
    rcases List.mem_append.1 hx with hx | hx
    · obtain ⟨e, -, rfl⟩ := List.mem_map.1 hx
      rfl
    · simp only [List.mem_cons, List.not_mem_nil, or_false] at hx
      rcases hx with rfl | rfl <;> rfl
  case beginStopWait timeout => obtain ⟨deadline, rfl⟩ := h; exact .plain (by simp [isPlain])
  case stopWait deadline timeout =>
    rcases h with rfl | rfl | rfl <;> exact .plain (by simp [isPlain])
  all_goals cases h; exact .plain (by simp [isPlain])

theorem countP_plain {p : Instr n → Bool} (hp : ∀ x : Instr n, x.isPlain = true → p x = false)
    {l : List (Instr n)} (h : ∀ x ∈ l, x.isPlain = true) : l.countP p = 0 := by
  rw [List.countP_eq_zero]
  intro x hx
  simp [hp x (h x hx)]

theorem nexts_plain (w : WorkerId) (x : Instr n) (h : x.isPlain = true) : nexts w x = false := by
  cases x <;> first | rfl | cases h

theorem slices_plain (w : WorkerId) (x : Instr n) (h : x.isPlain = true) : slices w x = false := by
  cases x <;> first | rfl | cases h

theorem closes_plain (w : WorkerId) (e : Fin n) (x : Instr n) (h : x.isPlain = true) :
    closes w e x = false := by
  cases x <;> first | rfl | cases h

theorem works_plain (w : WorkerId) (e : Fin n) (x : Instr n) (h : x.isPlain = true) :
    works w e x = false := by
  cases x <;> first | rfl | cases h

theorem abandons_plain (w : WorkerId) (x : Instr n) (h : x.isPlain = true) : abandons w x = false := by
  cases x <;> first | rfl | cases h

/-- What a step can add to the instructions of a worker, compared with the instruction that it carries
out. -/
structure Keeps (i : Instr n) (next : List (Instr n)) : Prop where
  nexts : ∀ w, next.countP (nexts w) ≤ [i].countP (nexts w)
  slices : ∀ w, i ≠ .nextSlice w → next.countP (slices w) ≤ [i].countP (slices w)
  closes : ∀ w e, (∀ a, i ≠ .publish w e a) → next.countP (closes w e) ≤ [i].countP (closes w e)
  works : ∀ w e, (∀ a, i ≠ .publish w e a) → next.countP (works w e) ≤ [i].countP (works w e)
  abandons : ∀ w, i ≠ .retire w → next.countP (abandons w) ≤ [i].countP (abandons w)

theorem Keeps.of_plain {i : Instr n} {next : List (Instr n)} (h : ∀ x ∈ next, x.isPlain = true) :
    i.Keeps next where
  nexts w := by simp [countP_plain (nexts_plain w) h]
  slices w _ := by simp [countP_plain (slices_plain w) h]
  closes w e _ := by simp [countP_plain (closes_plain w e) h]
  works w e _ := by simp [countP_plain (works_plain w e) h]
  abandons w _ := by simp [countP_plain (abandons_plain w) h]

theorem Leads.keeps {i : Instr n} {next : List (Instr n)} (h : i.Leads next) : i.Keeps next := by
  cases h.turns with
  | plain h => exact .of_plain h
  | within w e front hf =>
    constructor
    · intro w'; simp [countP_plain (nexts_plain w') hf]
    · intro w' _; simp [countP_plain (slices_plain w') hf]
    · intro w' e' _; simp [countP_plain (closes_plain w' e') hf]
    · intro w' e' _; simp [countP_plain (works_plain w' e') hf]
    · intro w' _; simp [countP_plain (abandons_plain w') hf]
  | reset e slice accounts ha =>
    constructor
    · intro w; simp [countP_plain (nexts_plain w) ha]
    · intro w _; simp [countP_plain (slices_plain w) ha]
    · intro w e' _; simp [countP_plain (closes_plain w e') ha]
    · intro w e' _; simp [countP_plain (works_plain w e') ha]
    · intro w _; simp [countP_plain (abandons_plain w) ha]
  | _ => constructor <;> simp

/-- The metrics context is told of an unload right after the host. -/
theorem Leads.announce {i : Instr n} {next : List (Instr n)} (h : i.Leads next) {e : Fin n}
    (he : .announce e ∈ next) : .callHost e .unload ∈ next := by
  cases h.turns with
  | plain h => cases h _ he
  | tell e' => simpa using he
  | within w e' front hf =>
    cases hf (.announce e) (by simpa using he)
  | reset e' slice accounts ha =>
    cases ha (.announce e) (by simpa using he)
  | _ => simp at he

/-! ## Threads in order -/

/-- What a thread still has to do is in order: the points of a worker's slice come before its next round,
and being within the work of a slice comes before its end. -/
structure InOrder (code : List (Instr n)) : Prop where
  follows : code.Pairwise Follows
  slices : ∀ w, code.countP (slices w) ≤ code.countP (nexts w)
  works : ∀ w e, code.countP (works w e) ≤ code.countP (closes w e)

theorem InOrder.nil : InOrder ([] : List (Instr n)) := ⟨.nil, by simp, by simp⟩

theorem rank_le (i : Instr n) : i.rank ≤ 5 := by
  cases i
  case callHost e callback => cases callback <;> simp [rank]
  all_goals simp [rank]

theorem rank_of_works {w : WorkerId} {e : Fin n} {i : Instr n} (h : i.works w e = true) :
    i.rank = 2 := by
  cases i <;> first | rfl | cases h

theorem rank_of_closes {w : WorkerId} {e : Fin n} {i : Instr n} (h : i.closes w e = true) :
    i.rank = 3 := by
  cases i <;> first | rfl | cases h

/-- Nothing that comes before an instruction in the order is left after it. -/
theorem countP_of_follows {i : Instr n} {rest : List (Instr n)} (h : ∀ j ∈ rest, i.Follows j)
    {p : Instr n → Bool} (hp : ∀ j, p j = true → j.rank < i.rank) : rest.countP p = 0 := by
  rw [List.countP_eq_zero]
  intro j hj hpj
  have hf := h j hj
  unfold Follows at hf
  have := hp j hpj
  omega

/-- Nothing comes after the next round. -/
theorem eq_nil_of_nextSlice {w : WorkerId} {rest : List (Instr n)}
    (h : ∀ j ∈ rest, (nextSlice w).Follows j) : rest = [] := by
  rw [List.eq_nil_iff_forall_not_mem]
  intro j hj
  have hf := h j hj
  unfold Follows at hf
  have hs : (nextSlice w : Instr n).rank = 5 := rfl
  have := rank_le j
  omega

theorem InOrder.step_works {i : Instr n} {rest next : List (Instr n)} (h : InOrder (i :: rest))
    (hl : i.Leads next) (w : WorkerId) (e : Fin n) :
    (next ++ rest).countP (Instr.works w e) ≤ (next ++ rest).countP (Instr.closes w e) := by
  have hw := h.works w e
  have hf := (List.pairwise_cons.1 h.follows).1
  rw [← List.singleton_append, List.countP_append, List.countP_append] at hw
  rw [List.countP_append, List.countP_append]
  by_cases hp : ∃ a, i = .publish w e a
  · obtain ⟨a, rfl⟩ := hp
    cases hl
    simp at hw ⊢
    omega
  · have hk := hl.keeps.works w e (not_exists.1 hp)
    by_cases hc : i.closes w e = true
    · have hi := rank_of_closes hc
      have hz := countP_of_follows hf fun j (hj : j.works w e = true) => by rw [rank_of_works hj, hi]; decide
      have hiw : [i].countP (Instr.works w e) = 0 := by cases i <;> first | rfl | cases hc
      omega
    · have hz : [i].countP (Instr.closes w e) = 0 := List.countP_cons_of_neg hc
      omega

/-- A step keeps the order. -/
theorem InOrder.step {i : Instr n} {rest next : List (Instr n)} (h : InOrder (i :: rest))
    (hl : i.Leads next) : InOrder (next ++ rest) := by
  obtain ⟨hf, hr⟩ := List.pairwise_cons.1 h.follows
  obtain ⟨hn, hx⟩ := hl.ranks
  refine ⟨?_, fun w => ?_, h.step_works hl⟩
  · exact List.pairwise_append.2 ⟨hn, hr, fun x hx' j hj => (hx x hx').follows (hf j hj)⟩
  · by_cases hi : ∃ w', i = .nextSlice w'
    · obtain ⟨w', rfl⟩ := hi
      obtain rfl := eq_nil_of_nextSlice hf
      rcases hl with rfl | rfl | rfl <;> simp [List.countP_cons]
    · have hs := h.slices w
      have hk := hl.keeps.slices w fun hw => hi ⟨w, hw⟩
      have hz : [i].countP (Instr.nexts w) = 0 := by
        cases i <;> first | rfl | exact absurd ⟨_, rfl⟩ hi
      rw [← List.singleton_append, List.countP_append, List.countP_append] at hs
      rw [List.countP_append, List.countP_append]
      omega

end Instr

/-- Counting in many lists when one of them changes. -/
theorem countP_flatten_set {α : Type} (p : α → Bool) {ls : List (List α)} {t : Nat} {l : List α}
    (h : ls[t]? = some l) (l' : List α) :
    (ls.set t l').flatten.countP p + l.countP p = ls.flatten.countP p + l'.countP p := by
  induction ls generalizing t with
  | nil => simp at h
  | cons k ls ih =>
    cases t with
    | zero =>
      simp only [List.getElem?_cons_zero, Option.some.injEq] at h
      subst h
      simp only [List.set_cons_zero, List.flatten_cons, List.countP_append]
      omega
    | succ t =>
      simp only [List.getElem?_cons_succ] at h
      have := ih h
      simp only [List.set_cons_succ, List.flatten_cons, List.countP_append]
      omega

theorem countP_flatten_le {α : Type} {p q : α → Bool} {ls : List (List α)}
    (h : ∀ l ∈ ls, l.countP p ≤ l.countP q) : ls.flatten.countP p ≤ ls.flatten.countP q := by
  induction ls with
  | nil => simp
  | cons l ls ih =>
    have hl := h l (List.mem_cons_self ..)
    have := ih fun k hk => h k (List.mem_cons_of_mem _ hk)
    simp only [List.flatten_cons, List.countP_append]
    omega

namespace Books

open Instr

/-- Everything that the threads still have to do. -/
def todo (b : Books n) : List (Instr n) := b.codes.flatten

/-- What is said of the workers agrees with what is still to be done. -/
structure Staffed (current : List (Option (Fin n))) (live : List Bool) (todo : List (Instr n)) :
    Prop where
  /-- A published slice is still to be closed. -/
  published : ∀ w e, current[w]? = some (some e) → 0 < todo.countP (closes w e)
  /-- A slice that is still to be closed is published, unless its worker is retired. -/
  exposed : ∀ w e, 0 < todo.countP (closes w e) → current[w]? = some (some e) ∨ live[w]? = some false
  /-- The slice of a worker is closed for it only when it is retired. -/
  retired : ∀ w, 0 < todo.countP (abandons w) → live[w]? = some false

/-- The threads are in order, and the books agree with them. -/
structure Orderly (b : Books n) : Prop where
  /-- Every thread is in order. -/
  inOrder : ∀ code ∈ b.codes, InOrder code
  /-- A worker has one thread. -/
  single : ∀ w, b.todo.countP (nexts w) ≤ 1
  /-- A worker that was not started has no thread. -/
  fresh : ∀ w, b.current.length ≤ w → b.todo.countP (nexts w) = 0
  /-- The two lists are of the same workers. -/
  lengths : b.live.length = b.current.length
  staffed : Staffed b.current b.live b.todo
  /-- The metrics context is told of an unload after the host. -/
  announced : ∀ code ∈ b.codes, ∀ e, .announce e ∈ code →
    .callHost e .unload ∈ code ∨ .unloaded ∈ b.marks e

theorem Orderly.start : Orderly (start : Books n) := by
  constructor
  case staffed => constructor <;> simp [Books.start, todo]
  all_goals simp [Books.start, todo]

variable {b b' : Books n}

/-- A worker is at one point of one slice at most. -/
theorem Orderly.one_slice (h : b.Orderly) (w : WorkerId) : b.todo.countP (slices w) ≤ 1 :=
  Nat.le_trans (countP_flatten_le fun code hc => (h.inOrder code hc).slices w) (h.single w)

theorem Orderly.works_le (h : b.Orderly) (w : WorkerId) (e : Fin n) :
    b.todo.countP (Instr.works w e) ≤ b.todo.countP (closes w e) :=
  countP_flatten_le fun code hc => (h.inOrder code hc).works w e

theorem closes_add_le {e e' : Fin n} (hne : e ≠ e') (w : WorkerId) (l : List (Instr n)) :
    l.countP (closes w e) + l.countP (closes w e') ≤ l.countP (slices w) := by
  induction l with
  | nil => simp
  | cons i l ih =>
    have hi : (if closes w e i then 1 else 0) + (if closes w e' i then 1 else 0) ≤
        if slices w i then 1 else 0 := by
      cases i
      case closeSlice w' e'' a =>
        simp only [closes, slices]
        grind
      all_goals simp
    rw [List.countP_cons, List.countP_cons, List.countP_cons]
    omega

/-- Two slices of a worker are not both still to be closed. -/
theorem closes_unique {l : List (Instr n)} {w : WorkerId} {e e' : Fin n}
    (hone : l.countP (slices w) ≤ 1) (he : 0 < l.countP (closes w e))
    (he' : 0 < l.countP (closes w e')) : e = e' := by
  by_cases hne : e = e'
  · exact hne
  · have := closes_add_le hne w l
    omega

theorem closes_le_slices (w : WorkerId) (e : Fin n) (l : List (Instr n)) :
    l.countP (closes w e) ≤ l.countP (slices w) := by
  refine List.countP_mono_left fun i _ hi => ?_
  cases i <;> simp_all

/-! ## What is said of the workers -/

namespace Staffed

variable {current : List (Option (Fin n))} {live : List Bool} {l l' : List (Instr n)}

/-- Nothing happens to a slice. -/
theorem keep (h : Staffed current live l) (hc : ∀ w e, l'.countP (closes w e) = l.countP (closes w e))
    (ha : ∀ w, l'.countP (abandons w) ≤ l.countP (abandons w)) : Staffed current live l' where
  published w e hw := by rw [hc]; exact h.published w e hw
  exposed w e hw := by rw [hc] at hw; exact h.exposed w e hw
  retired w hw := h.retired w (Nat.lt_of_lt_of_le hw (ha w))

/-- A worker is started. -/
theorem hire (h : Staffed current live l) (hc : ∀ w e, l'.countP (closes w e) = l.countP (closes w e))
    (ha : ∀ w, l'.countP (abandons w) = l.countP (abandons w)) :
    Staffed (current ++ [none]) (live ++ [true]) l' where
  published w e hw := by
    rw [hc]
    refine h.published w e ?_
    simp only [List.getElem?_append, List.getElem?_singleton] at hw
    grind
  exposed w e hw := by
    rw [hc] at hw
    refine (h.exposed w e hw).imp ?_ ?_
    · intro hw
      exact (List.getElem?_append_left (List.getElem?_eq_some_iff.1 hw).1).trans hw
    · intro hw
      exact (List.getElem?_append_left (List.getElem?_eq_some_iff.1 hw).1).trans hw
  retired w hw := by
    rw [ha] at hw
    have hw := h.retired w hw
    exact (List.getElem?_append_left (List.getElem?_eq_some_iff.1 hw).1).trans hw

/-- A slice is published by the worker that will close it. -/
theorem publish (h : Staffed current live l) {w : WorkerId} {e : Fin n} (hw : w < current.length)
    (hone : l'.countP (slices w) ≤ 1) (hadd : 0 < l'.countP (closes w e))
    (hc : ∀ w' e', ¬(w' = w ∧ e' = e) → l'.countP (closes w' e') = l.countP (closes w' e'))
    (ha : ∀ w', l'.countP (abandons w') = l.countP (abandons w')) :
    Staffed (current.set w (some e)) live l' where
  published w' e' hw' := by
    by_cases hww : w' = w
    · subst hww
      rw [List.getElem?_set_self hw] at hw'
      cases hw'
      exact hadd
    · rw [List.getElem?_set_ne (Ne.symm hww)] at hw'
      rw [hc w' e' fun h => hww h.1]
      exact h.published w' e' hw'
  exposed w' e' hw' := by
    by_cases hww : w' = w
    · subst hww
      obtain rfl := closes_unique hone hw' hadd
      exact Or.inl (List.getElem?_set_self hw)
    · rw [hc w' e' fun h => hww h.1] at hw'
      rw [List.getElem?_set_ne (Ne.symm hww)]
      exact h.exposed w' e' hw'
  retired w' hw' := by
    rw [ha] at hw'
    exact h.retired w' hw'

/-- A slice is withdrawn, by the worker that closed it or because that is retired. -/
theorem withdraw (h : Staffed current live l) {w : WorkerId}
    (hw : live[w]? = some false ∨ ∀ e, l'.countP (closes w e) = 0)
    (hc : ∀ w' e', w' ≠ w → l'.countP (closes w' e') = l.countP (closes w' e'))
    (ha : ∀ w', l'.countP (abandons w') ≤ l.countP (abandons w')) :
    Staffed (current.set w none) live l' where
  published w' e' hw' := by
    have hww : w' ≠ w := by
      rintro rfl
      rw [List.getElem?_set] at hw'
      grind
    rw [List.getElem?_set_ne (Ne.symm hww)] at hw'
    rw [hc w' e' hww]
    exact h.published w' e' hw'
  exposed w' e' hw' := by
    by_cases hww : w' = w
    · subst hww
      rcases hw with hw | hw
      · exact Or.inr hw
      · have := hw e'
        omega
    · rw [hc w' e' hww] at hw'
      rw [List.getElem?_set_ne (Ne.symm hww)]
      exact h.exposed w' e' hw'
  retired w' hw' := h.retired w' (Nat.lt_of_lt_of_le hw' (ha w'))

/-- A worker retires. -/
theorem retire (h : Staffed current live l) {w : WorkerId} (hw : live[w]? = some true)
    (hc : ∀ w' e', l'.countP (closes w' e') = l.countP (closes w' e'))
    (ha : ∀ w', w' ≠ w → l'.countP (abandons w') = l.countP (abandons w')) :
    Staffed current (live.set w false) l' where
  published w' e' hw' := by rw [hc]; exact h.published w' e' hw'
  exposed w' e' hw' := by
    rw [hc] at hw'
    refine (h.exposed w' e' hw').imp_right fun hl => ?_
    rw [List.getElem?_set]
    grind
  retired w' hw' := by
    by_cases hww : w' = w
    · subst hww
      exact List.getElem?_set_self (List.getElem?_eq_some_iff.1 hw).1
    · rw [ha w' hww] at hw'
      rw [List.getElem?_set_ne (Ne.symm hww)]
      exact h.retired w' hw'

end Staffed

/-! ## Moves keep the order -/

/-- A thread that starts with instructions that do not count. -/
theorem Orderly.spawn (h : b.Orderly) {code : List (Instr n)} (hp : ∀ i ∈ code, i.isPlain = true)
    (hf : code.Pairwise Follows) : Orderly { b with codes := b.codes ++ [code] } := by
  have hcount : ∀ p : Instr n → Bool, (∀ x : Instr n, x.isPlain = true → p x = false) →
      ({ b with codes := b.codes ++ [code] } : Books n).todo.countP p = b.todo.countP p := by
    intro p hpp
    simp [todo, countP_plain hpp hp]
  constructor
  case inOrder =>
    intro c hc
    rcases List.mem_append.1 hc with hc | hc
    · exact h.inOrder c hc
    · rw [List.mem_singleton.1 hc]
      refine ⟨hf, fun w => ?_, fun w e => ?_⟩
      · rw [countP_plain (slices_plain w) hp]; exact Nat.zero_le _
      · rw [countP_plain (works_plain w e) hp]; exact Nat.zero_le _
  case single => intro w; rw [hcount _ (nexts_plain w)]; exact h.single w
  case fresh => intro w hw; rw [hcount _ (nexts_plain w)]; exact h.fresh w hw
  case lengths => exact h.lengths
  case staffed =>
    exact h.staffed.keep (fun w e => hcount _ (closes_plain w e))
      fun w => Nat.le_of_eq (hcount _ (abandons_plain w))
  case announced =>
    intro c hc e he
    rcases List.mem_append.1 hc with hc | hc
    · exact h.announced c hc e he
    · rw [List.mem_singleton.1 hc] at he
      cases hp _ he

theorem Orderly.hireWorker (h : b.Orderly) : b.hireWorker.Orderly := by
  have hcount : ∀ p : Instr n → Bool, b.hireWorker.todo.countP p = b.todo.countP p +
      [.startWorker b.current.length, .nextSlice b.current.length].countP p := by
    intro p
    simp [todo, Books.hireWorker]
  constructor
  case inOrder =>
    intro c hc
    rcases List.mem_append.1 hc with hc | hc
    · exact h.inOrder c hc
    · rw [List.mem_singleton.1 hc]
      exact ⟨by simp [Follows, rank], by simp, by simp⟩
  case single =>
    intro w
    rw [hcount]
    by_cases hw : b.current.length = w
    · have := h.fresh w (Nat.le_of_eq hw)
      simp [hw, this]
    · have := h.single w
      simp [hw, this]
  case fresh =>
    intro w hw
    have hw : b.current.length + 1 ≤ w := by simpa [Books.hireWorker] using hw
    have hne : b.current.length ≠ w := by omega
    have := h.fresh w (by omega)
    simp [hcount, hne, this]
  case lengths => simp [Books.hireWorker, h.lengths]
  case staffed => exact h.staffed.hire (fun w e => by simp [hcount]) fun w => by simp [hcount]
  case announced =>
    intro c hc e he
    rcases List.mem_append.1 hc with hc | hc
    · exact h.announced c hc e he
    · rw [List.mem_singleton.1 hc] at he
      simp at he

theorem Orderly.hires (h : b.Orderly) (hh : b.Hires b') : Orderly b' := by
  induction hh with
  | refl => exact h
  | watchdog hh ih => exact ih (h.spawn (by simp [isPlain]) (by simp [Follows, rank]))
  | worker hh ih => exact ih h.hireWorker

/-- When a thread goes on in order, what is left to show is that the books of the workers agree. -/
theorem Orderly.replace (h : b.Orderly) {t : ThreadId} {code code' : List (Instr n)}
    (ht : b.codes[t]? = some code) (hcodes : b'.codes = b.codes.set t code')
    (hcurrent : b'.current.length = b.current.length) (hlive : b'.live.length = b.live.length)
    (hmarks : ∀ e, b.marks e <+: b'.marks e) (ho : InOrder code')
    (hn : ∀ w, code'.countP (nexts w) ≤ code.countP (nexts w))
    (ha : ∀ e, .announce e ∈ code' → .callHost e .unload ∈ code' ∨ .unloaded ∈ b'.marks e)
    (hs : ∀ todo, (∀ w, todo.countP (slices w) ≤ 1) →
      (∀ p, todo.countP p + code.countP p = b.todo.countP p + code'.countP p) →
      Staffed b'.current b'.live todo) : b'.Orderly := by
  have hcount : ∀ p : Instr n → Bool,
      b'.todo.countP p + code.countP p = b.todo.countP p + code'.countP p := by
    intro p
    unfold todo
    rw [hcodes]
    exact countP_flatten_set p ht code'
  have hmem : ∀ c ∈ b'.codes, c ∈ b.codes ∨ c = code' := by
    intro c hc
    rw [hcodes] at hc
    exact List.mem_or_eq_of_mem_set hc
  have hin : ∀ c ∈ b'.codes, InOrder c := by
    intro c hc
    rcases hmem c hc with hc | rfl
    · exact h.inOrder c hc
    · exact ho
  have hsingle : ∀ w, b'.todo.countP (nexts w) ≤ 1 := by
    intro w
    have := hcount (nexts w)
    have := hn w
    have := h.single w
    omega
  constructor
  case inOrder => exact hin
  case single => exact hsingle
  case fresh =>
    intro w hw
    have := hcount (nexts w)
    have := hn w
    have := h.fresh w (by omega)
    omega
  case lengths => rw [hlive, hcurrent, h.lengths]
  case staffed =>
    refine hs _ (fun w => ?_) hcount
    exact Nat.le_trans (countP_flatten_le fun c hc => (hin c hc).slices w) (hsingle w)
  case announced =>
    intro c hc e hce
    rcases hmem c hc with hc | rfl
    · exact (h.announced c hc e hce).imp_right fun hm => (hmarks e).subset hm
    · exact ha e hce

/-- Books that agree about the workers and the threads. -/
theorem Orderly.congr (h : b.Orderly) (hcurrent : b'.current = b.current) (hlive : b'.live = b.live)
    (hcodes : b'.codes = b.codes) (hmarks : ∀ e, b.marks e <+: b'.marks e) : b'.Orderly := by
  have htodo : b'.todo = b.todo := by unfold todo; rw [hcodes]
  constructor
  case inOrder => rw [hcodes]; exact h.inOrder
  case single => rw [htodo]; exact h.single
  case fresh => rw [htodo, hcurrent]; exact h.fresh
  case lengths => rw [hlive, hcurrent]; exact h.lengths
  case staffed => rw [htodo, hcurrent, hlive]; exact h.staffed
  case announced =>
    rw [hcodes]
    exact fun c hc e he => (h.announced c hc e he).imp_right fun hm => (hmarks e).subset hm

/-- The metrics context is still told of an unload after the host when a thread goes on. -/
theorem Orderly.step_announced (h : b.Orderly) {t : ThreadId} {i : Instr n} {rest next : List (Instr n)}
    (ht : b.codes[t]? = some (i :: rest))
    (he : i.Effect { b with codes := b.codes.set t rest } b' next) (hl : i.Leads next) (e : Fin n)
    (hm : .announce e ∈ next ++ rest) :
    .callHost e .unload ∈ next ++ rest ∨ .unloaded ∈ b'.marks e := by
  rcases List.mem_append.1 hm with hm | hm
  · exact Or.inl (List.mem_append_left _ (hl.announce hm))
  · rcases h.announced _ (List.mem_of_getElem? ht) e (List.mem_cons_of_mem _ hm) with hc | hu
    · rcases List.mem_cons.1 hc with rfl | hc
      · obtain ⟨rfl, -⟩ := he
        exact Or.inr (by simp)
      · exact Or.inl (List.mem_append_right _ hc)
    · exact Or.inr ((he.marks e).subset hu)

theorem mem_todo {t : ThreadId} {i : Instr n} {rest : List (Instr n)}
    (ht : b.codes[t]? = some (i :: rest)) : i ∈ b.todo :=
  List.mem_flatten.2 ⟨_, List.mem_of_getElem? ht, List.mem_cons_self ..⟩

/-- A worker that is at a point of a slice was started. -/
theorem Orderly.started (h : b.Orderly) {w : WorkerId} {i : Instr n} (hi : i ∈ b.todo)
    (hs : slices w i = true) : w < b.current.length := by
  have hpos : 0 < b.todo.countP (slices w) := List.countP_pos_iff.2 ⟨i, hi, hs⟩
  have hle : b.todo.countP (slices w) ≤ b.todo.countP (nexts w) :=
    countP_flatten_le fun code hc => (h.inOrder code hc).slices w
  refine Nat.lt_of_not_le fun hw => ?_
  have := h.fresh w hw
  omega

/-- What the threads have to do after one of them went on from `i`, counted by kind. -/
def Proceeds (b : Books n) (i : Instr n) (next todo : List (Instr n)) : Prop :=
  ∀ p : Instr n → Bool, todo.countP p + [i].countP p = b.todo.countP p + next.countP p

/-- A thread goes on in order, so what is left to show is that the books of the workers agree. -/
theorem Orderly.proceed (h : b.Orderly) {t : ThreadId} {i : Instr n} {rest next : List (Instr n)}
    (ht : b.codes[t]? = some (i :: rest)) (hl : i.Leads next) (hcodes : b'.codes = b.codes.set t rest)
    (hcurrent : b'.current.length = b.current.length) (hlive : b'.live.length = b.live.length)
    (hm : ∀ e, b.marks e <+: b'.marks e)
    (ha : ∀ e, .announce e ∈ next ++ rest → .callHost e .unload ∈ next ++ rest ∨ .unloaded ∈ b'.marks e)
    (hs : ∀ todo, (∀ w, todo.countP (slices w) ≤ 1) → b.Proceeds i next todo →
      Staffed b'.current b'.live todo) : Orderly { b' with codes := b'.codes.set t (next ++ rest) } := by
  have hsplit : ∀ p : Instr n → Bool, (i :: rest).countP p = [i].countP p + rest.countP p := by
    intro p
    rw [← List.singleton_append, List.countP_append]
  have hn : ∀ w, (next ++ rest).countP (nexts w) ≤ (i :: rest).countP (nexts w) := by
    intro w
    have := hl.keeps.nexts w
    rw [hsplit, List.countP_append]
    omega
  refine h.replace ht (by simp [hcodes]) hcurrent hlive hm
    ((h.inOrder _ (List.mem_of_getElem? ht)).step hl) hn ha fun todo hone hcount => hs todo hone fun p => ?_
  have := hcount p
  rw [hsplit, List.countP_append] at this
  omega

/-- The worker that publishes a slice is going to close it. -/
theorem Orderly.staffed_publish (h : b.Orderly) {w : WorkerId} {e : Fin n} {a : UInt64}
    {todo : List (Instr n)} (hi : .publish w e a ∈ b.todo) (hone : todo.countP (slices w) ≤ 1)
    (hcount : b.Proceeds (.publish w e a) [.callWork w e, .closeSlice w e a] todo) :
    Staffed (b.current.set w (some e)) b.live todo := by
  refine h.staffed.publish (h.started hi (by simp)) hone ?_ ?_ ?_
  · have := hcount (closes w e)
    simp at this
    omega
  · intro w' e' hne
    have := hcount (closes w' e')
    simp at this
    grind
  · intro w'
    have := hcount (abandons w')
    simp at this
    omega

/-- A worker that closes its slice has none. -/
theorem Orderly.staffed_closeSlice (h : b.Orderly) {w : WorkerId} {e : Fin n} {a : UInt64}
    {next todo : List (Instr n)} (hone : b.todo.countP (slices w) ≤ 1)
    (hnext : (∃ e' slice, next = [.resetTimer e' slice]) ∨ next = [])
    (hcount : b.Proceeds (.closeSlice w e a) next todo) :
    Staffed (b.current.set w none) b.live todo := by
  have hz : ∀ p : Instr n → Bool, (∀ e' slice, p (.resetTimer e' slice) = false) → next.countP p = 0 := by
    intro p hp
    rcases hnext with ⟨e', slice, rfl⟩ | rfl <;> simp [hp]
  refine h.staffed.withdraw (w := w) (Or.inr fun e' => ?_) ?_ ?_
  · have hnew := hcount (slices w)
    have := hz (slices w) (by simp)
    have := closes_le_slices w e' todo
    simp at hnew
    omega
  · intro w' e' hne
    have hnew := hcount (closes w' e')
    have := hz (closes w' e') (by simp)
    simp [Ne.symm hne] at hnew
    omega
  · intro w'
    have hnew := hcount (abandons w')
    have := hz (abandons w') (by simp)
    simp at hnew
    omega

/-- A worker whose slice is taken from it is retired. -/
theorem Orderly.staffed_takeAbandoned (h : b.Orderly) {w : WorkerId} {next todo : List (Instr n)}
    (hi : .takeAbandoned w ∈ b.todo) (hnext : (∃ e slice, next = [.resetTimer e slice]) ∨ next = [])
    (hcount : b.Proceeds (.takeAbandoned w) next todo) : Staffed (b.current.set w none) b.live todo := by
  have hz : ∀ p : Instr n → Bool, (∀ e' slice, p (.resetTimer e' slice) = false) → next.countP p = 0 := by
    intro p hp
    rcases hnext with ⟨e', slice, rfl⟩ | rfl <;> simp [hp]
  refine h.staffed.withdraw (w := w) (Or.inl ?_) ?_ ?_
  · exact h.staffed.retired w (List.countP_pos_iff.2 ⟨_, hi, by simp⟩)
  · intro w' e' _
    have hnew := hcount (closes w' e')
    have := hz (closes w' e') (by simp)
    simp at hnew
    omega
  · intro w'
    have hnew := hcount (abandons w')
    have := hz (abandons w') (by simp)
    omega

/-- A worker that retires may have its slice taken from it. -/
theorem Orderly.staffed_retire (h : b.Orderly) {w : WorkerId} {todo : List (Instr n)}
    (hw : b.live[w]? = some true)
    (hcount : b.Proceeds (.retire w) [.takeAbandoned w, .decideRespawn w] todo) :
    Staffed b.current (b.live.set w false) todo := by
  refine h.staffed.retire hw ?_ ?_
  · intro w' e'
    have hnew := hcount (closes w' e')
    simp at hnew
    omega
  · intro w' hne
    have hnew := hcount (abandons w')
    simp [Ne.symm hne] at hnew
    omega

/-- Every other instruction leaves the slices alone. -/
theorem Orderly.staffed_keep (h : b.Orderly) {i : Instr n} {next todo : List (Instr n)} (hl : i.Leads next)
    (hp : ∀ w e a, i ≠ .publish w e a) (hc : ∀ w e a, i ≠ .closeSlice w e a)
    (hr : ∀ w, i = .retire w → next = []) (hcount : b.Proceeds i next todo) :
    Staffed b.current b.live todo := by
  refine h.staffed.keep ?_ ?_
  · intro w e
    have hnew := hcount (closes w e)
    have := hl.keeps.closes w e (hp w e)
    have hz : [i].countP (closes w e) = 0 := by
      cases i <;> first | rfl | exact absurd rfl (hc _ _ _)
    omega
  · intro w
    have hnew := hcount (abandons w)
    by_cases hw : i = .retire w
    · obtain rfl := hr w hw
      simp at hnew
      omega
    · have := hl.keeps.abandons w hw
      omega

theorem Orderly.step (h : b.Orderly) {t : ThreadId} {i : Instr n} {rest next : List (Instr n)}
    (ht : b.codes[t]? = some (i :: rest))
    (he : i.Effect { b with codes := b.codes.set t rest } b' next) (hl : i.Leads next) :
    Orderly { b' with codes := b'.codes.set t (next ++ rest) } := by
  have hm : ∀ e, b.marks e <+: b'.marks e := he.marks
  have ha := h.step_announced ht he hl
  by_cases hp : ∃ w e a, i = .publish w e a
  · obtain ⟨w, e, a, rfl⟩ := hp
    obtain ⟨rfl, rfl⟩ := he
    exact h.proceed ht hl rfl (by simp) rfl hm ha fun _ hone hcount =>
      h.staffed_publish (mem_todo ht) (hone w) hcount
  by_cases hc : ∃ w e a, i = .closeSlice w e a
  · obtain ⟨w, e, a, rfl⟩ := hc
    obtain ⟨rfl, hnext⟩ := he
    refine h.proceed ht hl rfl (by simp) rfl hm ha fun _ _ hcount =>
      h.staffed_closeSlice (h.one_slice w) ?_ hcount
    rcases hnext with ⟨e', slice, -, hn⟩ | ⟨-, hn⟩
    · exact Or.inl ⟨e, slice, hn⟩
    · exact Or.inr hn
  by_cases hab : ∃ w, i = .takeAbandoned w
  · obtain ⟨w, rfl⟩ := hab
    obtain ⟨rfl, hnext⟩ := he
    refine h.proceed ht hl rfl (by simp) rfl hm ha fun _ _ hcount =>
      h.staffed_takeAbandoned (mem_todo ht) ?_ hcount
    rcases hnext with ⟨e', -, hn⟩ | ⟨-, hn⟩
    · exact Or.inl ⟨e', .abandoned, hn⟩
    · exact Or.inr hn
  by_cases hr : ∃ w, i = .retire w ∧ next ≠ []
  · obtain ⟨w, rfl, hnext⟩ := hr
    obtain ⟨hw, rfl, rfl⟩ | ⟨-, -, rfl⟩ := he
    · exact h.proceed ht hl rfl rfl (by simp) hm ha fun _ _ hcount => h.staffed_retire hw hcount
    · exact absurd rfl hnext
  have hp' : ∀ w e a, i ≠ .publish w e a := fun w e a hi => hp ⟨w, e, a, hi⟩
  have hc' : ∀ w e a, i ≠ .closeSlice w e a := fun w e a hi => hc ⟨w, e, a, hi⟩
  have hr' : ∀ w, i = .retire w → next = [] := fun w hi => Classical.byContradiction fun hne => hr ⟨w, hi, hne⟩
  obtain ⟨hired, hh, hcurrent, hlive, hcodes, heq⟩ := he.staff hp' hc' (fun w hi => hab ⟨w, hi⟩) hr'
  rcases heq with rfl | ⟨rfl, hcall⟩
  · refine h.proceed ht hl hcodes (by rw [hcurrent]) (by rw [hlive]) hm ha fun _ _ hcount => ?_
    rw [hcurrent, hlive]
    exact h.staffed_keep hl hp' hc' hr' hcount
  · -- Threads are started by the last instruction of a part, so the thread goes on before they are.
    have hrest : Orderly { b with codes := b.codes.set t rest } := by
      let gone : Books n := { b with codes := b.codes.set t rest }
      have hann : ∀ e, .announce e ∈ [] ++ rest →
          .callHost e .unload ∈ [] ++ rest ∨ .unloaded ∈ gone.marks e := fun e hm' =>
        (h.announced _ (List.mem_of_getElem? ht) e (List.mem_cons_of_mem _ hm')).imp_left
          (List.mem_of_ne_of_mem (hcall e).symm)
      have hgo : Orderly { gone with codes := gone.codes.set t ([] ++ rest) } :=
        h.proceed ht hl rfl rfl rfl (fun _ => List.prefix_refl _) hann fun _ _ hcount =>
          h.staffed_keep hl hp' hc' hr' hcount
      simpa [gone] using hgo
    have hset : b'.codes.set t ([] ++ rest) = hired.codes := by
      have hrest' := hh.codes (List.getElem?_set_self (List.getElem?_eq_some_iff.1 ht).1)
      obtain ⟨hlt, hget⟩ := List.getElem?_eq_some_iff.1 hrest'
      rw [hcodes, List.nil_append, ← hget, List.set_getElem_self]
    obtain ⟨current, live, codes, rfl⟩ := hh.eq
    exact (hrest.hires hh).congr hcurrent hlive hset hm

theorem Orderly.moves (h : b.Orderly) (hm : b.Moves b') : b'.Orderly := by
  cases hm with
  | rest => exact h
  | arrive c => exact h.spawn (by simp [isPlain]) (by simp)
  | step t i rest next b' ht he hl => exact h.step ht he hl
  | tear t e o rest ht =>
    have hcode := h.inOrder _ (List.mem_of_getElem? ht)
    have hz : ∀ w e', (.account e o :: rest).countP (closes w e') = 0 := by
      intro w e'
      rw [List.countP_cons_of_neg (by simp)]
      refine countP_of_follows (List.pairwise_cons.1 hcode.follows).1 fun j hj => ?_
      rw [rank_of_closes hj]
      exact Nat.lt_succ_self 3
    refine h.replace ht rfl rfl rfl (fun _ => List.prefix_refl _) .nil (by simp) (by simp)
      fun todo hone hcount => h.staffed.keep (fun w e' => ?_) fun w => ?_
    · have := hcount (closes w e')
      rw [hz] at this
      simpa using this
    · have := hcount (abandons w)
      simp at this
      omega

end Books

end FairShare.Scheduler
