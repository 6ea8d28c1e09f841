import LoxFront.Diagnostic.Docket
import Mathlib.Data.List.Induction
import Mathlib.Tactic.Common

namespace LoxFront

section Firsts
variable {α β γ : Type} [DecidableEq γ] (key : β → γ)

/-- The elements of a list whose key no earlier element has. -/
def firsts (l : List β) : List β :=
  l.eraseDupsBy fun a b => key a = key b

theorem firsts_nil : firsts key [] = [] := rfl

theorem firsts_cons (a : β) (l : List β) :
    firsts key (a :: l) = a :: firsts key (l.filter fun b => key b ≠ key a) := by
  unfold firsts
  rw [List.eraseDupsBy_cons]
  simp only [decide_eq_false_iff_not, ne_eq]

theorem firsts_concat (l : List β) (e : β) :
    firsts key (l ++ [e]) = firsts key l ++ if key e ∈ l.map key then [] else [e] := by
  -- Each element strikes out those behind it that share its key, so the induction is on the length.
  match l with
  | [] => simp [firsts_cons, firsts_nil]
  | a :: l =>
    have ih := firsts_concat (l.filter fun b => key b ≠ key a) e
    rw [List.cons_append, firsts_cons, firsts_cons, List.filter_append, List.cons_append]
    by_cases h : key e = key a
    · simp [h]
    · have hkeep : [e].filter (fun b => key b ≠ key a) = [e] := by
        simp [h]
      have hmem : key e ∈ (l.filter fun b => key b ≠ key a).map key ↔
          key e ∈ (a :: l).map key := by
        simp only [List.mem_map, List.mem_filter, decide_eq_true_eq, List.map_cons, List.mem_cons,
          h, false_or]
        constructor
        · rintro ⟨b, ⟨hb, -⟩, he⟩
          exact ⟨b, hb, he⟩
        · rintro ⟨b, hb, he⟩
          exact ⟨b, ⟨hb, he ▸ h⟩, he⟩
      rw [hkeep, ih]
      simp only [hmem]
termination_by l.length
decreasing_by
  have hle := List.length_filter_le (fun b => decide (key b ≠ key a)) l
  simp only [List.length_cons]
  omega

theorem firsts_map (f : α → β) (l : List α) :
    firsts key (l.map f) = (firsts (fun a => key (f a)) l).map f := by
  induction l using List.reverseRecOn with
  | nil => rfl
  | append_singleton l e ih =>
    rw [List.map_append, List.map_singleton, firsts_concat, ih, firsts_concat, List.map_append,
      List.map_map, apply_ite (List.map f)]
    rfl

theorem firsts_sublist (l : List β) : (firsts key l).Sublist l := by
  induction l using List.reverseRecOn with
  | nil => exact List.Sublist.slnil
  | append_singleton l e ih =>
    rw [firsts_concat]
    apply ih.append
    split_ifs
    · exact List.nil_sublist _
    · exact List.Sublist.refl _

theorem firsts_eq_nil_iff {l : List β} : firsts key l = [] ↔ l = [] := by
  cases l with
  | nil => exact ⟨fun _ => rfl, fun _ => rfl⟩
  | cons a l => simp [firsts_cons]

theorem firsts_of_injective [DecidableEq β] (h : Function.Injective key) (l : List β) :
    firsts key l = l.eraseDups := by
  unfold firsts List.eraseDups
  congr 1
  funext a b
  rw [decide_eq_decide.mpr h.eq_iff]
  rfl

end Firsts

namespace Limits

/-- The elements that repeat no earlier one, if repeats are folded, and else all of them. -/
def distinct {β γ : Type} [DecidableEq γ] (limits : Limits) (key : β → γ) (l : List β) : List β :=
  if limits.deduplicate then firsts key l else l

def cut {β : Type} (limits : Limits) (l : List β) : List β :=
  if limits.errorLimit = 0 then l else l.take limits.errorLimit

section Cut
variable {α β γ : Type} [DecidableEq γ] (limits : Limits)

theorem distinct_map (key : β → γ) (f : α → β) (l : List α) :
    limits.distinct key (l.map f) = (limits.distinct (fun a => key (f a)) l).map f := by
  unfold distinct
  rw [apply_ite (List.map f), firsts_map]

theorem distinct_sublist (key : β → γ) (l : List β) : (limits.distinct key l).Sublist l := by
  unfold distinct
  split_ifs
  · exact firsts_sublist key l
  · exact List.Sublist.refl l

theorem distinct_eq_nil_iff (key : β → γ) {l : List β} : limits.distinct key l = [] ↔ l = [] := by
  unfold distinct
  split_ifs
  · exact firsts_eq_nil_iff key
  · exact Iff.rfl

theorem cut_map (f : α → β) (l : List α) : limits.cut (l.map f) = (limits.cut l).map f := by
  unfold cut
  rw [apply_ite (List.map f), List.map_take]

theorem cut_sublist (l : List β) : (limits.cut l).Sublist l := by
  unfold cut
  split_ifs
  · exact List.Sublist.refl l
  · exact List.take_sublist _ _

theorem cut_eq_nil_iff {l : List β} : limits.cut l = [] ↔ l = [] := by
  unfold cut
  split_ifs with h
  · exact Iff.rfl
  · rw [List.take_eq_nil_iff]
    exact or_iff_right h

theorem cut_concat (l : List β) (e : β) :
    limits.cut (l ++ [e]) =
      if limits.errorLimit ≠ 0 ∧ limits.errorLimit ≤ (limits.cut l).length then limits.cut l
      else limits.cut l ++ [e] := by
  by_cases h0 : limits.errorLimit = 0
  · simp [cut, h0]
  · have hcut (m : List β) : limits.cut m = m.take limits.errorLimit := if_neg h0
    rw [hcut, hcut]
    by_cases hle : limits.errorLimit ≤ l.length
    · have hlen : (l.take limits.errorLimit).length = limits.errorLimit := by
        rw [List.length_take, Nat.min_eq_left hle]
      rw [hlen, if_pos ⟨h0, Nat.le_refl _⟩]
      exact List.take_append_of_le_length hle
    · have htake : l.take limits.errorLimit = l := List.take_of_length_le (by omega)
      rw [htake, if_neg fun h => hle h.2]
      apply List.take_of_length_le
      rw [List.length_append, List.length_singleton]
      omega

end Cut

end Limits

namespace Docket

/-- The docket has kept what there is room for, and counted these diagnostics as shown or over the
limit. -/
structure Holds (offered : List Diagnostic) (d : Docket) : Prop where
  kept_eq : d.kept.toList = d.limits.cut offered
  shown_eq : d.tally.shown = (d.limits.cut offered).length
  counted : d.tally.shown + d.tally.overLimit = offered.length

theorem limitReached_iff (d : Docket) :
    d.limitReached = true ↔ d.limits.errorLimit ≠ 0 ∧ d.limits.errorLimit ≤ d.tally.shown := by
  unfold limitReached
  rw [Bool.and_eq_true, bne_iff_ne, decide_eq_true_eq]

theorem add_unchanged (d : Docket) (e : Diagnostic) :
    (d.add e).2.limits = d.limits ∧ (d.add e).2.seen = d.seen ∧
      (d.add e).2.tally.repeated = d.tally.repeated := by
  unfold add
  split_ifs <;> exact ⟨rfl, rfl, rfl⟩

theorem Holds.add {offered : List Diagnostic} {d : Docket} (h : d.Holds offered) (e : Diagnostic) :
    (d.add e).2.Holds (offered ++ [e]) := by
  have hcut := d.limits.cut_concat offered e
  rw [← h.shown_eq] at hcut
  unfold Docket.add
  by_cases hr : d.limitReached = true
  · rw [if_pos ((limitReached_iff d).mp hr)] at hcut
    rw [if_pos hr]
    refine ⟨h.kept_eq.trans hcut.symm, h.shown_eq.trans (congrArg List.length hcut.symm), ?_⟩
    rw [List.length_append, ← h.counted]
    rfl
  · rw [if_neg (mt (limitReached_iff d).mpr hr)] at hcut
    rw [if_neg hr]
    refine ⟨?_, ?_, ?_⟩
    · rw [hcut, Array.toList_push, h.kept_eq]
    · rw [hcut, List.length_append, ← h.shown_eq]
      rfl
    · rw [List.length_append, ← h.counted]
      simp only [List.length_singleton]
      omega

/-- A docket that has been offered these diagnostics and no others. -/
structure After (limits : Limits) (offered : List Diagnostic) (d : Docket) : Prop where
  limits_eq : d.limits = limits
  seen_iff : limits.deduplicate = true → ∀ k, k ∈ d.seen ↔ k ∈ offered.map Diagnostic.key
  holds : d.Holds (limits.distinct Diagnostic.key offered)
  repeated : (limits.distinct Diagnostic.key offered).length + d.tally.repeated = offered.length

theorem after_empty (limits : Limits) : (empty limits).After limits [] := by
  have hnil : limits.distinct Diagnostic.key [] = [] := (limits.distinct_eq_nil_iff _).mpr rfl
  have hcut : limits.cut ([] : List Diagnostic) = [] := limits.cut_eq_nil_iff.mpr rfl
  refine ⟨rfl, fun _ k => Iff.rfl, ?_, ?_⟩
  · rw [hnil]
    exact ⟨hcut.symm, congrArg List.length hcut.symm, rfl⟩
  · rw [hnil]
    rfl

theorem After.push {limits : Limits} {offered : List Diagnostic} {d : Docket}
    (h : d.After limits offered) (e : Diagnostic) : (d.push e).2.After limits (offered ++ [e]) := by
  obtain ⟨rfl, hseen, hholds, hrep⟩ := h
  unfold Docket.push
  by_cases hd : d.limits.deduplicate = true
  · have hdistinct : d.limits.distinct Diagnostic.key (offered ++ [e]) = _ :=
      (if_pos hd).trans (firsts_concat Diagnostic.key offered e)
    have hfirsts : d.limits.distinct Diagnostic.key offered = firsts Diagnostic.key offered :=
      if_pos hd
    rw [← hfirsts] at hdistinct
    rw [if_pos hd]
    by_cases hk : d.seen.contains e.key = true
    · -- A repeat changes nothing but its count.
      have hmem := (hseen hd _).mp (List.contains_iff_mem.mp hk)
      rw [if_pos hmem, List.append_nil] at hdistinct
      rw [if_pos hk]
      refine ⟨rfl, ?_, ?_, ?_⟩
      · intro _ k
        rw [List.map_append, List.mem_append, ← hseen hd k, List.map_singleton, List.mem_singleton]
        exact ⟨Or.inl, fun hm => hm.elim id fun he => he ▸ (List.contains_iff_mem.mp hk)⟩
      · rw [hdistinct]
        exact ⟨hholds.kept_eq, hholds.shown_eq, hholds.counted⟩
      · rw [hdistinct, List.length_append, ← hrep]
        rfl
    · have hmem := mt (hseen hd _).mpr (mt List.contains_iff_mem.mpr hk)
      rw [if_neg hmem] at hdistinct
      rw [if_neg hk]
      have hnoted : ({ d with seen := e.key :: d.seen } : Docket).Holds
          (d.limits.distinct Diagnostic.key offered) :=
        ⟨hholds.kept_eq, hholds.shown_eq, hholds.counted⟩
      obtain ⟨hl, hs, hr⟩ := add_unchanged { d with seen := e.key :: d.seen } e
      refine ⟨hl, ?_, ?_, ?_⟩
      · intro _ k
        rw [hs, List.mem_cons, hseen hd k, List.map_append, List.mem_append, List.map_singleton,
          List.mem_singleton]
        exact or_comm
      · rw [hdistinct]
        exact hnoted.add e
      · rw [hr, hdistinct, List.length_append, List.length_append, ← hrep]
        simp only [List.length_singleton]
        omega
  · have hall (l : List Diagnostic) : d.limits.distinct Diagnostic.key l = l := if_neg hd
    rw [hall] at hholds hrep
    rw [if_neg hd]
    obtain ⟨hl, -, hr⟩ := add_unchanged d e
    refine ⟨hl, fun he => absurd he hd, ?_, ?_⟩
    · rw [hall]
      exact hholds.add e
    · rw [hr, hall, List.length_append, ← hrep]
      simp only [List.length_singleton]
      omega

theorem After.pushAll {limits : Limits} {offered : List Diagnostic} {d : Docket}
    (h : d.After limits offered) (ds : List Diagnostic) :
    (d.pushAll ds).After limits (offered ++ ds) := by
  induction ds generalizing d offered with
  | nil =>
    rw [List.append_nil]
    exact h
  | cons e ds ih =>
    have hrun := ih (h.push e)
    rw [List.append_assoc] at hrun
    exact hrun

/-- What a run leaves in a docket: the first diagnostics of each key up to the limit, and one count
for each diagnostic offered. -/
theorem after_pushAll (limits : Limits) (ds : List Diagnostic) :
    ((empty limits).pushAll ds).After limits ds :=
  (after_empty limits).pushAll ds

theorem After.total_eq {limits : Limits} {offered : List Diagnostic} {d : Docket}
    (h : d.After limits offered) : d.tally.total = offered.length := by
  calc
    d.tally.total = d.tally.shown + d.tally.overLimit + d.tally.repeated := rfl
    _ = (limits.distinct Diagnostic.key offered).length + d.tally.repeated := by
      rw [h.holds.counted]
    _ = offered.length := h.repeated

theorem After.kept_eq {limits : Limits} {offered : List Diagnostic} {d : Docket}
    (h : d.After limits offered) :
    d.kept.toList = limits.cut (limits.distinct Diagnostic.key offered) := by
  rw [h.holds.kept_eq, h.limits_eq]

theorem After.sorted_eq {limits : Limits} {offered : List Diagnostic} {d : Docket}
    (h : d.After limits offered)
    (hs : offered.Pairwise fun a b => linePlace a ≤ linePlace b) : d.sorted = d.kept.toList := by
  have hsub : d.kept.toList.Sublist offered := by
    rw [h.kept_eq]
    exact (limits.cut_sublist _).trans (limits.distinct_sublist _ _)
  apply List.mergeSort_of_pairwise
  apply (hs.sublist hsub).imp
  exact fun hab => decide_eq_true hab

end Docket

end LoxFront
