import FairShare.Allocation
import Mathlib.Algebra.BigOperators.Group.Finset.Basic

/-!
# What a thread is billed for

The bytes that a thread counts are those of the blocks it was given and those that its blocks gained, up to whole rounds of
the word. Each block can be billed by itself: what happened to the others in between, and what was turned down, makes no
difference to its size and so none to its bill.
-/

namespace FairShare.Allocation

/-! ## The bill of a thread -/

/-- What a call adds: a block that is given counts in full, one that is enlarged by what it gains. -/
def Ledger.charge (l : Ledger) : Call → Nat
  | .allocate size granted | .allocateZeroed size granted => if granted then size.toNat else 0
  | .reallocate i size granted => match l.block? i with
    | some old => if granted then size.toNat - old.toNat else 0
    | none => 0
  | .free _ => 0

/-- What a sequence of calls adds. -/
def Ledger.charges (l : Ledger) : List Call → Nat
  | [] => 0
  | c :: calls => l.charge c + (l.after c).charges calls

theorem toNat_gain (old new : UInt64) : (Ledger.gain old new).toNat = new.toNat - old.toNat := by
  unfold Ledger.gain
  split
  case isTrue hlt => exact UInt64.toNat_sub_of_le _ _ (UInt64.le_of_lt hlt)
  case isFalse hge =>
    rw [UInt64.lt_iff_toNat_lt] at hge
    rw [UInt64.toNat_zero]
    omega

theorem wrapWord_toNat (a : UInt64) : wrapWord (a.toNat + 0) = a.toNat :=
  wrapWord_of_le (Nat.le_of_lt_succ a.toNat_lt)

namespace Ledger

variable (l : Ledger)

theorem current_allocate (size : UInt64) (granted : Bool) :
    (l.allocate size granted).current.toNat = wrapWord (l.current.toNat + if granted then size.toNat else 0) := by
  unfold allocate
  cases granted
  · exact (wrapWord_toNat _).symm
  · exact toNat_wrapAdd ..

theorem current_after (c : Call) : (l.after c).current.toNat = wrapWord (l.current.toNat + l.charge c) := by
  cases c with
  | allocate size granted => exact l.current_allocate size granted
  | allocateZeroed size granted => exact l.current_allocate size granted
  | reallocate i size granted =>
    simp only [after, reallocate, charge]
    cases l.block? i with
    | none => exact (wrapWord_toNat _).symm
    | some old =>
      cases granted
      · exact (wrapWord_toNat _).symm
      · have hgain := toNat_wrapAdd l.current (gain old size)
        rw [toNat_gain] at hgain
        exact hgain
  | free i => exact (wrapWord_toNat _).symm

theorem current_run (calls : List Call) :
    (l.run calls).current.toNat = wrapWord (l.current.toNat + l.charges calls) := by
  induction calls generalizing l with
  | nil => exact (wrapWord_toNat _).symm
  | cons c calls ih =>
    have hrest := ih (l.after c)
    rw [current_after, wrapWord_wrapWord_add, Nat.add_assoc] at hrest
    exact hrest

end Ledger

/-! ## The bill of a block -/

/-- What happens to a block. -/
inductive BlockCall where
  /-- It is given. -/
  | given (size : UInt64)
  /-- It gets another size. -/
  | resized (size : UInt64)
  /-- It is given back. -/
  | freed
  deriving DecidableEq

namespace BlockCall

/-- The size of a block afterwards, if it is held. -/
def after (size : Option UInt64) : BlockCall → Option UInt64
  | given new => some new
  | resized new => size.map fun _ => new
  | freed => none

/-- What it adds to the bill of a block of this size. -/
def charge (size : Option UInt64) : BlockCall → Nat
  | given new => new.toNat
  | resized new => (size.map fun old => new.toNat - old.toNat).getD 0
  | freed => 0

end BlockCall

/-- The bill of a block of this size to which these things happen. -/
def bill (size : Option UInt64) : List BlockCall → Nat
  | [] => 0
  | x :: history => x.charge size + bill (x.after size) history

/-- What a call does to a block, when so many blocks were asked for before. What is turned down does nothing. -/
def Call.affects (i asked : Nat) : Call → List BlockCall
  | .allocate size granted | .allocateZeroed size granted => if granted ∧ asked = i then [.given size] else []
  | .reallocate j size granted => if granted ∧ j = i then [.resized size] else []
  | .free j => if j = i then [.freed] else []

/-- How many blocks a call asks for. -/
def Call.asks : Call → Nat
  | .allocate _ _ | .allocateZeroed _ _ => 1
  | .reallocate _ _ _ | .free _ => 0

/-- What happens to a block in a sequence of calls, when so many blocks were asked for before. -/
def blockHistory (i asked : Nat) : List Call → List BlockCall
  | [] => []
  | c :: calls => c.affects i asked ++ blockHistory i (asked + c.asks) calls

namespace Ledger

variable (l : Ledger)

theorem length_after (c : Call) : (l.after c).blocks.length = l.blocks.length + c.asks := by
  have hallocate : ∀ size granted, (l.allocate size granted).blocks.length = l.blocks.length + 1 := by
    intro size granted
    unfold allocate
    split <;> exact List.length_append
  cases c with
  | allocate size granted => exact hallocate size granted
  | allocateZeroed size granted => exact hallocate size granted
  | reallocate i size granted =>
    simp only [after, reallocate]
    split
    case h_1 => rfl
    case h_2 =>
      split
      · exact List.length_set
      · rfl
  | free i => exact List.length_set

theorem length_run (calls : List Call) : l.blocks.length ≤ (l.run calls).blocks.length := by
  induction calls generalizing l with
  | nil => exact Nat.le_refl _
  | cons c calls ih =>
    have hrest := ih (l.after c)
    rw [length_after] at hrest
    exact Nat.le_trans (Nat.le_add_right ..) hrest

/-! ### What a call does to a block -/

theorem block?_allocate (size : UInt64) (granted : Bool) (i : Nat) :
    (l.allocate size granted).block? i =
      if granted ∧ l.blocks.length = i then some size else l.block? i := by
  -- a block behind the last one is not held, nor is one that was asked for in vain
  have hbehind : ∀ new : Option UInt64, ((l.blocks ++ [new])[i]?).join =
      if l.blocks.length = i then new else l.block? i := by
    intro new
    rw [List.getElem?_append, block?]
    split
    case isTrue hi => rw [if_neg (by omega)]
    case isFalse hi =>
      rw [List.getElem?_singleton, List.getElem?_eq_none (by omega)]
      split <;> split <;> first | rfl | omega
  cases granted with
  | true =>
    simp only [true_and]
    exact hbehind (some size)
  | false =>
    simp only [Bool.false_eq_true, false_and, if_false]
    refine (hbehind none).trans (ite_eq_right_iff.2 fun hi => ?_)
    rw [block?, List.getElem?_eq_none (Nat.le_of_eq hi)]
    rfl

theorem block?_set (new : Option UInt64) (i j : Nat) :
    ((l.blocks.set j new)[i]?).join = if j = i ∧ j < l.blocks.length then new else l.block? i := by
  rw [List.getElem?_set, block?]
  grind

theorem lt_of_block? {i : Nat} {size : UInt64} (h : l.block? i = some size) : i < l.blocks.length := by
  by_contra hle
  rw [block?, List.getElem?_eq_none (Nat.le_of_not_lt hle)] at h
  cases h

/-- What is held of a block afterwards is seen from what happened to it alone. -/
theorem block?_after (c : Call) (i : Nat) :
    (l.after c).block? i = (c.affects i l.blocks.length).foldl BlockCall.after (l.block? i) := by
  have hallocate : ∀ size granted, (l.allocate size granted).block? i =
      (if granted ∧ l.blocks.length = i then [BlockCall.given size] else []).foldl BlockCall.after (l.block? i) := by
    intro size granted
    rw [block?_allocate]
    split <;> rfl
  cases c with
  | allocate size granted => exact hallocate size granted
  | allocateZeroed size granted => exact hallocate size granted
  | reallocate j size granted =>
    simp only [after, reallocate, Call.affects]
    cases hj : l.block? j with
    | none =>
      dsimp only
      split
      case isTrue hi =>
        obtain ⟨-, rfl⟩ := hi
        rw [hj]
        rfl
      case isFalse => rfl
    | some old =>
      cases granted
      case false => simp
      case true =>
        have hset := l.block?_set (some size) i j
        simp only [l.lt_of_block? hj, and_true] at hset
        simp only [if_true, true_and]
        refine hset.trans ?_
        split
        case isTrue hi =>
          subst hi
          rw [hj]
          rfl
        case isFalse => rfl
  | free j =>
    have hset := l.block?_set none i j
    simp only [after, free, Call.affects]
    refine hset.trans ?_
    split
    case isTrue hi => rw [if_pos hi.1]; rfl
    case isFalse hi =>
      split
      case isTrue hij =>
        -- the block was never asked for
        subst hij
        rw [block?, List.getElem?_eq_none (by omega)]
        rfl
      case isFalse => rfl

/-- A call is billed to the one block that it is about. -/
theorem charge_eq (c : Call) {N : Nat} (hN : (l.after c).blocks.length ≤ N) :
    l.charge c = ∑ i ∈ Finset.range N, bill (l.block? i) (c.affects i l.blocks.length) := by
  rw [length_after] at hN
  have hallocate : ∀ (size : UInt64) (granted : Bool), l.blocks.length < N → (if granted then size.toNat else 0) =
      ∑ i ∈ Finset.range N,
        bill (l.block? i) (if granted ∧ l.blocks.length = i then [BlockCall.given size] else []) := by
    intro size granted hlt
    rw [Finset.sum_eq_single_of_mem l.blocks.length (Finset.mem_range.2 hlt)]
    · cases granted <;> simp [bill, BlockCall.charge]
    · intro i _ hi
      rw [if_neg fun h => hi h.2.symm]
      rfl
  cases c with
  | allocate size granted => exact hallocate size granted hN
  | allocateZeroed size granted => exact hallocate size granted hN
  | reallocate j size granted =>
    simp only [charge, Call.affects]
    by_cases hj : j < N
    · rw [Finset.sum_eq_single_of_mem j (Finset.mem_range.2 hj)]
      · cases l.block? j <;> cases granted <;> simp [bill, BlockCall.charge]
      · intro i _ hi
        rw [if_neg fun h => hi h.2.symm]
        rfl
    · have hnone : l.block? j = none := by
        rw [Option.eq_none_iff_forall_ne_some]
        exact fun size hsize => hj (Nat.lt_of_lt_of_le (l.lt_of_block? hsize) hN)
      rw [hnone, Finset.sum_eq_zero]
      intro i hi
      rw [if_neg fun h : granted = true ∧ j = i => hj (h.2 ▸ Finset.mem_range.1 hi)]
      rfl
  | free j =>
    refine (Finset.sum_eq_zero fun i _ => ?_).symm
    simp only [Call.affects]
    split <;> rfl

end Ledger

theorem bill_append (size : Option UInt64) (before later : List BlockCall) :
    bill size (before ++ later) = bill size before + bill (before.foldl BlockCall.after size) later := by
  induction before generalizing size with
  | nil => exact (Nat.zero_add _).symm
  | cons x before ih =>
    rw [List.cons_append, bill, bill, ih, Nat.add_assoc]
    rfl

/-! ## Bills of blocks and bills of threads -/

namespace Ledger

variable (l : Ledger)

theorem block?_run (calls : List Call) (i : Nat) :
    (l.run calls).block? i = (blockHistory i l.blocks.length calls).foldl BlockCall.after (l.block? i) := by
  induction calls generalizing l with
  | nil => rfl
  | cons c calls ih =>
    rw [blockHistory, List.foldl_append, ← block?_after, ← length_after]
    exact ih (l.after c)

theorem charges_eq (calls : List Call) {N : Nat} (hN : (l.run calls).blocks.length ≤ N) :
    l.charges calls = ∑ i ∈ Finset.range N, bill (l.block? i) (blockHistory i l.blocks.length calls) := by
  induction calls generalizing l with
  | nil => exact (Finset.sum_eq_zero fun _ _ => rfl).symm
  | cons c calls ih =>
    have hfirst := l.charge_eq c (Nat.le_trans ((l.after c).length_run calls) hN)
    have hrest := ih (l.after c) hN
    simp only [charges, blockHistory, bill_append, Finset.sum_add_distrib, ← block?_after, ← length_after]
    rw [hfirst, hrest]

/-- A call that is not billed: its request is turned down, or it gives a block back or makes one smaller. -/
def Unbilled (l : Ledger) : Call → Prop
  | .allocate _ granted | .allocateZeroed _ granted => granted = false
  | .reallocate i size granted => granted = false ∨ ∃ old, l.block? i = some old ∧ size ≤ old
  | .free _ => True

theorem Unbilled.charge_eq {l : Ledger} {c : Call} (h : l.Unbilled c) : l.charge c = 0 := by
  cases c with
  | allocate size granted => exact if_neg (Bool.eq_false_iff.1 h)
  | allocateZeroed size granted => exact if_neg (Bool.eq_false_iff.1 h)
  | reallocate i size granted =>
    simp only [charge]
    split
    case h_1 old hold =>
      obtain hrefused | ⟨old', hold', hle⟩ := h
      · exact if_neg (Bool.eq_false_iff.1 hrefused)
      · obtain rfl := Option.some.inj (hold.symm.trans hold')
        rw [Nat.sub_eq_zero_of_le (UInt64.le_iff_toNat_le.1 hle), ite_self]
    case h_2 => rfl
  | free i => rfl

theorem Unbilled.current_after {l : Ledger} {c : Call} (h : l.Unbilled c) : (l.after c).current = l.current := by
  have hcurrent := l.current_after c
  rw [h.charge_eq, wrapWord_toNat] at hcurrent
  exact UInt64.toNat_inj.1 hcurrent

theorem reallocate_refused (i : Nat) (size : UInt64) : l.reallocate i size false = l := by
  unfold reallocate
  split <;> rfl

theorem run_concat (calls : List Call) (c : Call) : l.run (calls ++ [c]) = (l.run calls).after c :=
  List.foldl_concat ..

/-- The accounts of a sequence of calls. -/
structure Accounts (l : Ledger) (calls : List Call) : Prop where
  /-- The bytes counted are those charged for each call, by the size of its block just before. -/
  current : (l.run calls).current.toNat = wrapWord (l.current.toNat + l.charges calls)
  /-- What is held of a block depends on what happened to this block, which no call does that is turned down. -/
  sizes : ∀ i, (l.run calls).block? i = (blockHistory i l.blocks.length calls).foldl BlockCall.after (l.block? i)
  /-- So does its bill, and the blocks' bills make up that of the thread. -/
  bills : l.charges calls =
    ∑ i ∈ Finset.range (l.run calls).blocks.length, bill (l.block? i) (blockHistory i l.blocks.length calls)
  /-- Another size that is turned down leaves the block and the bytes as they were. -/
  refused : ∀ i size, l.run (calls ++ [.reallocate i size false]) = l.run calls
  unbilled : ∀ c, (l.run calls).Unbilled c → (l.run (calls ++ [c])).current = (l.run calls).current

/-- Whatever a thread asks for and gives back, and whatever of it is granted, its count is that of its blocks' bills. -/
theorem run_accounts (calls : List Call) : l.Accounts calls := by
  constructor
  case current => exact l.current_run calls
  case sizes => exact l.block?_run calls
  case bills => exact l.charges_eq calls (Nat.le_refl _)
  case refused =>
    intro i size
    rw [run_concat]
    exact (l.run calls).reallocate_refused i size
  case unbilled =>
    intro c hc
    rw [run_concat]
    exact hc.current_after

-- a block is billed for each time it grows, also back to a size that it had
example : (({} : Ledger).run [.allocate 10 true, .allocateZeroed 7 true, .reallocate 0 30 true, .reallocate 0 5 true,
    .reallocate 0 40 false, .free 1, .reallocate 0 30 true]).current = 10 + 7 + (30 - 10) + (30 - 5) := by
  decide

end Ledger

end FairShare.Allocation
