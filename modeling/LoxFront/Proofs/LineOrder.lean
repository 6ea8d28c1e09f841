import LoxFront.Diagnostic.Docket
import Mathlib.Data.List.Basic
import Mathlib.Tactic.Common

/-! There is only one stable sort of a list: what stands on each line, with the order of the lines,
is the whole list. -/
namespace LoxFront

def onLine (line : Option UInt32) (ds : List Diagnostic) : List Diagnostic :=
  ds.filter fun d => d.line = line

/-- A list holds the diagnostics of another one by line, each line as it was. -/
structure SortedByLine (ds sorted : List Diagnostic) : Prop where
  perm : sorted.Perm ds
  ordered : sorted.Pairwise fun a b => a.line ≤ b.line
  stable : ∀ line, onLine line sorted = onLine line ds

theorem mem_onLine {line : Option UInt32} {d : Diagnostic} {ds : List Diagnostic} :
    d ∈ onLine line ds ↔ d ∈ ds ∧ d.line = line := by
  rw [onLine, List.mem_filter, decide_eq_true_eq]

theorem onLine_cons_self (d : Diagnostic) (ds : List Diagnostic) :
    onLine d.line (d :: ds) = d :: onLine d.line ds :=
  List.filter_cons_of_pos (decide_eq_true rfl)

theorem linePlace_le_iff {a b : Diagnostic} :
    Docket.linePlace a ≤ Docket.linePlace b ↔ a.line ≤ b.line := by
  unfold Docket.linePlace
  cases a.line with
  | none => simp
  | some x =>
    cases b.line with
    | none => simp
    | some y => simp [UInt32.le_iff_toNat_le]

theorem eq_of_line_le {a b : Diagnostic} (h : a.line ≤ b.line) (h' : b.line ≤ a.line) :
    a.line = b.line := by
  have hp : Docket.linePlace a = Docket.linePlace b :=
    Nat.le_antisymm (linePlace_le_iff.mpr h) (linePlace_le_iff.mpr h')
  unfold Docket.linePlace at hp
  cases ha : a.line with
  | none =>
    cases hb : b.line with
    | none => rfl
    | some y => simp [ha, hb] at hp
  | some x =>
    cases hb : b.line with
    | none => simp [ha, hb] at hp
    | some y =>
      simp only [ha, hb, Nat.add_right_cancel_iff] at hp
      rw [UInt32.toNat_inj.mp hp]

theorem mem_iff_of_onLine_eq {l m : List Diagnostic} (h : ∀ line, onLine line l = onLine line m)
    (d : Diagnostic) : d ∈ l ↔ d ∈ m := by
  have hd : d ∈ onLine d.line l ↔ d ∈ onLine d.line m := by
    rw [h]
  simpa only [mem_onLine, and_true] using hd

theorem line_head_le {a d : Diagnostic} {l : List Diagnostic}
    (hl : (a :: l).Pairwise fun a b => a.line ≤ b.line) (hd : d ∈ a :: l) : a.line ≤ d.line := by
  rcases List.mem_cons.mp hd with rfl | hd
  · exact linePlace_le_iff.mp (Nat.le_refl _)
  · exact List.rel_of_pairwise_cons hl hd

/-- Two lists in the order of lines are equal if they agree on each line. -/
theorem eq_of_onLine_eq {l m : List Diagnostic} (hl : l.Pairwise fun a b => a.line ≤ b.line)
    (hm : m.Pairwise fun a b => a.line ≤ b.line) (h : ∀ line, onLine line l = onLine line m) :
    l = m := by
  induction l generalizing m with
  | nil =>
    apply Eq.symm
    apply List.eq_nil_iff_forall_not_mem.mpr
    intro d hd
    exact List.not_mem_nil ((mem_iff_of_onLine_eq h d).mpr hd)
  | cons a l ih =>
    have hmem := mem_iff_of_onLine_eq h
    cases m with
    | nil => exact absurd ((hmem a).mp List.mem_cons_self) List.not_mem_nil
    | cons b m =>
      have hab : a.line ≤ b.line := line_head_le hl ((hmem b).mpr List.mem_cons_self)
      have hba : b.line ≤ a.line := line_head_le hm ((hmem a).mp List.mem_cons_self)
      have hline := eq_of_line_le hab hba
      have hfirst : a :: onLine a.line l = b :: onLine a.line m := by
        rw [← onLine_cons_self, h, hline, onLine_cons_self]
      obtain ⟨rfl, -⟩ := List.cons.inj hfirst
      have hrest (line : Option UInt32) : onLine line l = onLine line m := by
        have hcons := h line
        unfold onLine at hcons ⊢
        rw [List.filter_cons, List.filter_cons] at hcons
        split_ifs at hcons
        · exact (List.cons.inj hcons).2
        · exact hcons
      exact congrArg (List.cons a) (ih hl.tail hm.tail hrest)

theorem sortedByLine_mergeSort (ds : List Diagnostic) :
    SortedByLine ds
      (ds.mergeSort fun a b => Docket.linePlace a ≤ Docket.linePlace b) := by
  have htrans (a b c : Diagnostic) (hab : decide (Docket.linePlace a ≤ Docket.linePlace b) = true)
      (hbc : decide (Docket.linePlace b ≤ Docket.linePlace c) = true) :
      decide (Docket.linePlace a ≤ Docket.linePlace c) = true :=
    decide_eq_true (Nat.le_trans (of_decide_eq_true hab) (of_decide_eq_true hbc))
  have htotal (a b : Diagnostic) : (decide (Docket.linePlace a ≤ Docket.linePlace b) ||
      decide (Docket.linePlace b ≤ Docket.linePlace a)) = true := by
    rw [Bool.or_eq_true, decide_eq_true_eq, decide_eq_true_eq]
    exact Nat.le_total _ _
  have hperm := List.mergeSort_perm ds fun a b =>
    decide (Docket.linePlace a ≤ Docket.linePlace b)
  refine ⟨hperm, ?_, ?_⟩
  · apply (List.pairwise_mergeSort htrans htotal ds).imp
    intro a b hab
    exact linePlace_le_iff.mp (of_decide_eq_true hab)
  · intro line
    have hpair : (onLine line ds).Pairwise fun a b =>
        decide (Docket.linePlace a ≤ Docket.linePlace b) = true := by
      apply List.pairwise_of_forall_mem_list
      intro a ha b hb
      have hline : a.line = b.line := (mem_onLine.mp ha).2.trans (mem_onLine.mp hb).2.symm
      have hplace : Docket.linePlace a = Docket.linePlace b := by
        unfold Docket.linePlace
        rw [hline]
      exact decide_eq_true (Nat.le_of_eq hplace)
    have hsub := List.sublist_mergeSort htrans htotal hpair List.filter_sublist
    have hsub' := hsub.filter fun d => decide (d.line = line)
    have hself : (onLine line ds).filter (fun d => decide (d.line = line)) = onLine line ds := by
      rw [onLine, List.filter_filter]
      simp only [Bool.and_self]
    rw [hself] at hsub'
    exact (hsub'.eq_of_length (hperm.filter _).length_eq.symm).symm

/-- Sorting by line gives the one list that holds the same diagnostics by line, each line as it was.
-/
theorem sortedByLine_iff {ds sorted : List Diagnostic} :
    SortedByLine ds sorted ↔
      sorted = ds.mergeSort fun a b => Docket.linePlace a ≤ Docket.linePlace b := by
  have hsort := sortedByLine_mergeSort ds
  constructor
  · intro h
    apply eq_of_onLine_eq h.ordered hsort.ordered
    intro line
    rw [h.stable, hsort.stable]
  · rintro rfl
    exact hsort

end LoxFront
