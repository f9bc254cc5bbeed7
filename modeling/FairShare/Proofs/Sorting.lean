import FairShare.Metrics.Record
import Mathlib

/-!
# Records in order

Sorting by a field puts the largest readings first and leaves records that agree as they stood. So a sort by one field
keeps what earlier sorts by other fields did to those that agree in it: after a series of sorts the last field counts
first, and the one before it decides among equals. Which list comes of it is determined by that.
-/

namespace FairShare.Metrics.Record

variable {f : Field} {fields : List Field} {records before after other : List Record}

/-- Two records have the same reading of every one of these fields. -/
def Ties (fields : List Field) (a b : Record) : Prop := ∀ f ∈ fields, b.read f = a.read f

instance (fields : List Field) (a : Record) : DecidablePred (Ties fields a) :=
  fun _ => inferInstanceAs (Decidable (∀ f ∈ fields, _))

/-- In the first of these fields in which two records differ, the former reads more. -/
def Leads : List Field → Record → Record → Prop
  | [], _, _ => True
  | f :: fields, a, b => b.read f < a.read f ∨ (b.read f = a.read f ∧ Leads fields a b)

/-- What is left of a list of records that are put in descending order of some fields, the first of which counts most. -/
structure Arranged (fields : List Field) (before after : List Record) : Prop where
  /-- No record is lost and none comes twice. -/
  perm : after.Perm before
  descending : after.Pairwise (Leads fields)
  /-- Records that agree in all of the fields stand as they stood. -/
  stable : ∀ r, after.filter (Ties fields r) = before.filter (Ties fields r)

theorem ties_nil (a b : Record) : Ties [] a b := by
  intro f hf
  cases hf

theorem ties_cons {a b : Record} : Ties (f :: fields) a b ↔ b.read f = a.read f ∧ Ties fields a b :=
  List.forall_mem_cons

theorem ties_refl (fields : List Field) (a : Record) : Ties fields a a := fun _ _ => rfl

/-- Of two records that lead each other neither reads more in any field. -/
theorem Leads.ties {a b : Record} (hab : Leads fields a b) (hba : Leads fields b a) : Ties fields a b := by
  induction fields with
  | nil => exact ties_nil a b
  | cons f fields ih =>
    rcases hab with hlt | ⟨heq, hab⟩
    · rcases hba with hlt' | ⟨heq', -⟩
      · exact absurd hlt' (UInt64.not_lt.2 (UInt64.le_of_lt hlt))
      · exact absurd heq'.symm (UInt64.ne_of_lt hlt)
    · rcases hba with hlt' | ⟨-, hba⟩
      · exact absurd heq.symm (UInt64.ne_of_lt hlt')
      · exact ties_cons.2 ⟨heq, ih hab hba⟩

/-! ## One sort -/

theorem sortBy_perm (f : Field) (records : List Record) : (sortBy f records).Perm records :=
  List.mergeSort_perm records _

theorem reads_trans (f : Field) (a b c : Record) (hab : decide (b.read f ≤ a.read f) = true)
    (hbc : decide (c.read f ≤ b.read f) = true) : decide (c.read f ≤ a.read f) = true := by
  rw [decide_eq_true_eq] at hab hbc ⊢
  exact UInt64.le_trans hbc hab

theorem reads_total (f : Field) (a b : Record) :
    (decide (b.read f ≤ a.read f) || decide (a.read f ≤ b.read f)) = true := by
  rw [Bool.or_eq_true, decide_eq_true_eq, decide_eq_true_eq]
  exact UInt64.le_total _ _

theorem sortBy_descending (f : Field) (records : List Record) :
    (sortBy f records).Pairwise fun a b => b.read f ≤ a.read f :=
  (List.pairwise_mergeSort (reads_trans f) (reads_total f) records).imp of_decide_eq_true

/-- Those of one reading stand as they stood. -/
theorem sortBy_filter (f : Field) (x : UInt64) (records : List Record) :
    (sortBy f records).filter (·.read f = x) = records.filter (·.read f = x) := by
  have hequal : (records.filter (·.read f = x)).Pairwise fun a b => decide (b.read f ≤ a.read f) = true := by
    rw [List.pairwise_filter]
    refine List.pairwise_of_forall fun a b ha hb => ?_
    rw [decide_eq_true_eq] at ha hb ⊢
    exact UInt64.le_of_eq (hb.trans ha.symm)
  have hkept := (List.sublist_mergeSort (reads_trans f) (reads_total f) hequal List.filter_sublist).filter (·.read f = x)
  rw [List.filter_filter] at hkept
  simp only [Bool.and_self] at hkept
  exact (hkept.eq_of_length ((sortBy_perm f records).filter _).length_eq.symm).symm

/-- What is in order already stays as it is. -/
theorem sortBy_of_descending (h : records.Pairwise fun a b => b.read f ≤ a.read f) : sortBy f records = records :=
  List.mergeSort_of_pairwise (h.imp decide_eq_true)

/-! ## A series of sorts -/

theorem arranged_nil (records : List Record) : Arranged [] records records where
  perm := .refl records
  descending := List.pairwise_of_forall fun _ _ => trivial
  stable _ := rfl

/-- A sort of what was put in order before: the earlier order decides among equals. -/
theorem Arranged.sortBy (h : Arranged fields before after) (f : Field) :
    Arranged (f :: fields) before (sortBy f after) where
  perm := (sortBy_perm f after).trans h.perm
  descending := by
    rw [List.pairwise_iff_forall_sublist]
    intro a b hab
    have hle := List.pairwise_iff_forall_sublist.1 (sortBy_descending f after) hab
    by_cases heq : b.read f = a.read f
    case neg => exact .inl (UInt64.lt_of_le_of_ne hle heq)
    case pos =>
      -- the two stood in this order before the sort
      have hfilter := hab.filter (·.read f = a.read f)
      rw [sortBy_filter] at hfilter
      have htwo : [a, b].filter (·.read f = a.read f) = [a, b] := by simp [heq]
      rw [htwo] at hfilter
      exact .inr ⟨heq, List.pairwise_iff_forall_sublist.1 h.descending (hfilter.trans List.filter_sublist)⟩
  stable r := by
    have hsplit : ∀ l : List Record, l.filter (Ties (f :: fields) r) =
        (l.filter (·.read f = r.read f)).filter (Ties fields r) := by
      intro l
      rw [List.filter_filter]
      refine List.filter_congr fun x _ => ?_
      rw [← Bool.decide_and, decide_eq_decide, ties_cons, and_comm]
    -- the two conditions can be taken in either order
    have hswap : ∀ l : List Record, l.filter (Ties (f :: fields) r) =
        (l.filter (Ties fields r)).filter (·.read f = r.read f) := by
      intro l
      rw [hsplit, List.filter_filter, List.filter_filter]
      simp only [Bool.and_comm]
    rw [hsplit, sortBy_filter, ← hsplit, hswap, h.stable r, ← hswap]

theorem arranged_foldr (fields : List Field) (records : List Record) :
    Arranged fields records (fields.foldr Record.sortBy records) := by
  induction fields with
  | nil => exact arranged_nil records
  | cons f fields ih => exact ih.sortBy f

/-- At most one list is in order and keeps equals as they stood. -/
theorem eq_of_leads (hperm : after.Perm other) (hafter : after.Pairwise (Leads fields))
    (hother : other.Pairwise (Leads fields))
    (hstable : ∀ r, after.filter (Ties fields r) = other.filter (Ties fields r)) : after = other := by
  induction after generalizing other with
  | nil => exact hperm.nil_eq
  | cons a after ih =>
    cases other with
    | nil => exact absurd hperm.symm.nil_eq (List.cons_ne_nil a after).symm
    | cons b other =>
      rw [List.pairwise_cons] at hafter hother
      -- each of the two first records stands somewhere in the other list, so they agree
      have hties : Ties fields a b := by
        rcases List.mem_cons.1 (hperm.mem_iff.1 List.mem_cons_self) with rfl | ha
        · exact ties_refl fields a
        rcases List.mem_cons.1 (hperm.mem_iff.2 List.mem_cons_self) with rfl | hb
        · exact ties_refl fields b
        exact (hafter.1 b hb).ties (hother.1 a ha)
      have hfirst := hstable a
      rw [List.filter_cons, List.filter_cons, if_pos (decide_eq_true (ties_refl fields a)),
        if_pos (decide_eq_true hties)] at hfirst
      obtain rfl : a = b := List.head_eq_of_cons_eq hfirst
      refine congrArg (a :: ·) (ih hperm.cons_inv hafter.2 hother.2 fun r => ?_)
      have hrest := hstable r
      rw [List.filter_cons, List.filter_cons] at hrest
      split at hrest
      case isTrue => exact List.tail_eq_of_cons_eq hrest
      case isFalse => exact hrest

/-- Sorts by several fields, the last of which is the first of `fields`, leave the one list that is in descending order of
them and keeps those as they stood that agree in all of them; and to sort by a field again changes nothing. -/
theorem sortBy_arranges (records : List Record) :
    (∀ fields after, Arranged fields records after ↔ after = fields.foldr sortBy records) ∧
      ∀ f, sortBy f (sortBy f records) = sortBy f records := by
  refine ⟨fun fields after => ⟨fun h => ?_, ?_⟩, fun f => sortBy_of_descending (sortBy_descending f records)⟩
  · have hsorted := arranged_foldr fields records
    exact eq_of_leads (h.perm.trans hsorted.perm.symm) h.descending hsorted.descending
      fun r => (h.stable r).trans (hsorted.stable r).symm
  · rintro rfl
    exact arranged_foldr fields records

end FairShare.Metrics.Record
