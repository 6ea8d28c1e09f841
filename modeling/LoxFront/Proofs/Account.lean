import LoxFront.Proofs.Docket
import LoxFront.Proofs.LineOrder

namespace LoxFront

/-- The diagnostics of a run that are kept: the different ones, as far as there is room. -/
def Limits.keeps (limits : Limits) (offered : List Diagnostic) : List Diagnostic :=
  limits.cut (limits.distinct Diagnostic.key offered)

theorem Limits.length_cut_le {β : Type} {limits : Limits} (h : limits.errorLimit ≠ 0) (l : List β) :
    (limits.cut l).length ≤ limits.errorLimit := by
  rw [cut, if_neg h]
  exact List.length_take_le _ _

theorem Limits.keeps_eq_nil_iff (limits : Limits) {offered : List Diagnostic} :
    limits.keeps offered = [] ↔ offered = [] := by
  rw [keeps, cut_eq_nil_iff, distinct_eq_nil_iff]

namespace Docket

/-- What a docket says of a run, with these limits, in which these diagnostics were offered. The counts
add up to the number of diagnostics offered, so a word that holds this number holds each of them. -/
structure Account (limits : Limits) (offered : List Diagnostic) (d : Docket) : Prop where
  shown : d.tally.shown = (limits.keeps offered).length
  overLimit : (limits.keeps offered).length + d.tally.overLimit =
    (limits.distinct Diagnostic.key offered).length
  repeated : (limits.distinct Diagnostic.key offered).length + d.tally.repeated = offered.length
  total : d.tally.total = offered.length
  full_iff : d.limitReached = true ↔
    limits.errorLimit ≠ 0 ∧ (limits.keeps offered).length = limits.errorLimit
  stays_full : d.limitReached = true → ∀ more, (d.pushAll more).limitReached = true
  failed_iff : d.failed?.isSome = true ↔ offered ≠ []
  kept_ne_nil_iff : limits.keeps offered ≠ [] ↔ offered ≠ []
  sorted_iff : ∀ l, SortedByLine (limits.keeps offered) l ↔ l = d.sorted

theorem limitReached_add {d : Docket} (h : d.limitReached = true) (e : Diagnostic) :
    (d.add e).2.limitReached = true := by
  rw [add, if_pos h]
  exact h

theorem limitReached_push {d : Docket} (h : d.limitReached = true) (e : Diagnostic) :
    (d.push e).2.limitReached = true := by
  unfold push
  split_ifs
  · exact h
  · have hnoted : ({ d with seen := e.key :: d.seen } : Docket).limitReached = true := h
    exact limitReached_add hnoted e
  · exact limitReached_add h e

theorem limitReached_pushAll {d : Docket} (h : d.limitReached = true) (more : List Diagnostic) :
    (d.pushAll more).limitReached = true := by
  induction more generalizing d with
  | nil => exact h
  | cons e more ih => exact ih (limitReached_push h e)

section After
variable {limits : Limits} {offered : List Diagnostic} {d : Docket}

theorem After.shown_eq (h : d.After limits offered) :
    d.tally.shown = (limits.keeps offered).length := by
  rw [h.holds.shown_eq, h.limits_eq, Limits.keeps]

theorem After.full_iff (h : d.After limits offered) :
    d.limitReached = true ↔
      limits.errorLimit ≠ 0 ∧ (limits.keeps offered).length = limits.errorLimit := by
  rw [limitReached_iff, h.limits_eq, h.shown_eq]
  apply and_congr_right
  intro h0
  have hle : (limits.keeps offered).length ≤ limits.errorLimit := Limits.length_cut_le h0 _
  constructor
  · exact Nat.le_antisymm hle
  · exact Nat.le_of_eq ∘ Eq.symm

theorem After.failed_iff (h : d.After limits offered) :
    d.failed?.isSome = true ↔ offered ≠ [] := by
  rw [failed?, h.total_eq, Failed.ofCount?]
  cases offered with
  | nil => simp
  | cons e offered => simp

theorem After.account (h : d.After limits offered) : d.Account limits offered := by
  have hshown := h.shown_eq
  have hcounted := h.holds.counted
  constructor
  · exact hshown
  · rw [← hshown]
    exact hcounted
  · exact h.repeated
  · exact h.total_eq
  · exact h.full_iff
  · exact limitReached_pushAll
  · exact h.failed_iff
  · exact not_congr limits.keeps_eq_nil_iff
  · intro l
    rw [sorted, h.kept_eq]
    exact sortedByLine_iff

end After

/-- The account of a docket is exact after any run. What it keeps are the first diagnostics of each
key up to the limit, sorted by line; each of the others is counted once, as a repeat or as over the
limit. -/
theorem account_pushAll (limits : Limits) (offered : List Diagnostic) :
    ((empty limits).pushAll offered).Account limits offered :=
  (after_pushAll limits offered).account

end Docket

end LoxFront
