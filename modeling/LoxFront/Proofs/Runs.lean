import Mathlib.Data.List.TakeWhile

/-! Runs: the longest start of a list that lies in a class. -/
namespace LoxFront.Runs

section Class
variable {α : Type} {p : α → Bool}

theorem length_le_takeWhile {w text : List α} (h : w <+: text) (hw : ∀ a ∈ w, p a = true) :
    w.length ≤ (text.takeWhile p).length := by
  obtain ⟨r, rfl⟩ := h
  rw [List.takeWhile_append_of_pos hw, List.length_append]
  exact Nat.le_add_right _ _

/-- Where a start of a list leaves a class for the first time, there the run of that class ends. -/
theorem takeWhile_of_starts {w text r : List α} {a : α} (h : w ++ a :: r <+: text)
    (hw : ∀ b ∈ w, p b = true) (ha : p a = false) :
    text.takeWhile p = w ∧ a :: r <+: text.dropWhile p := by
  obtain ⟨s, rfl⟩ := h
  have hna : ¬ p a = true := by
    rw [ha]
    exact Bool.false_ne_true
  constructor
  · rw [List.append_assoc, List.takeWhile_append_of_pos hw, List.cons_append,
      List.takeWhile_cons_of_neg hna, List.append_nil]
  · rw [List.append_assoc, List.dropWhile_append_of_pos hw, List.cons_append,
      List.dropWhile_cons_of_neg hna]
    exact ⟨s, rfl⟩

theorem append_cons_inj {w w' r r' : List α} {a b : α} (h : w ++ a :: r = w' ++ b :: r')
    (hw : ∀ c ∈ w, p c = true) (hw' : ∀ c ∈ w', p c = true) (ha : p a = false)
    (hb : p b = false) : w = w' ∧ a = b ∧ r = r' := by
  have hrun : (w ++ a :: r).takeWhile p = w := (takeWhile_of_starts List.prefix_rfl hw ha).1
  have hrun' : (w' ++ b :: r').takeWhile p = w' := (takeWhile_of_starts List.prefix_rfl hw' hb).1
  obtain rfl : w = w' := by
    rw [← hrun, h, hrun']
  exact ⟨rfl, List.cons.inj (List.append_cancel_left h)⟩

end Class

section Until
variable {α : Type} [DecidableEq α] {a : α} {l : List α}

theorem bne_of_not_mem (h : a ∉ l) : ∀ b ∈ l, (b != a) = true := by
  intro b hb
  rw [bne_iff_ne]
  rintro rfl
  exact h hb

theorem split_unique {w w' r r' : List α} (h : w ++ a :: r = w' ++ a :: r') (hw : a ∉ w)
    (hw' : a ∉ w') : w = w' ∧ r = r' := by
  have ha : (a != a) = false := bne_self_eq_false a
  obtain ⟨hword, -, hrest⟩ := append_cons_inj h (bne_of_not_mem hw) (bne_of_not_mem hw') ha ha
  exact ⟨hword, hrest⟩

theorem not_mem_takeWhile_bne (a : α) (l : List α) : a ∉ l.takeWhile (· != a) := by
  intro h
  have ha := List.mem_takeWhile_imp (p := fun b => b != a) h
  exact bne_iff_ne.mp ha rfl

theorem takeWhile_bne_append (h : a ∉ l) (r : List α) :
    (l ++ a :: r).takeWhile (· != a) = l :=
  (takeWhile_of_starts List.prefix_rfl (bne_of_not_mem h) (by simp)).1

theorem takeWhile_bne_self (h : a ∉ l) : l.takeWhile (· != a) = l :=
  List.takeWhile_eq_self_iff.mpr (bne_of_not_mem h)

end Until

end LoxFront.Runs
