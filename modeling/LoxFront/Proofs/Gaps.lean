import LoxFront.Proofs.Lookahead
import LoxFront.Proofs.Words

namespace LoxFront
open Text Lexical

def solid (n : Nat) (ps : List (Tag × List Char)) : List Lexeme :=
  (placed n ps).filter fun l => !l.tag.isTrivia

section Solid
variable {n : Nat} {p : Tag × List Char} {ps : List (Tag × List Char)}

theorem solid_cons_trivia (h : p.1.isTrivia = true) :
    solid n (p :: ps) = solid (n + p.2.count '\n') ps := by
  have hl : (!(lexemeOf (n + p.2.count '\n') p).tag.isTrivia) = false := by
    rw [lexemeOf, h]
    rfl
  rw [solid, placed, List.filter_cons, hl]
  rfl

theorem solid_cons_solid (h : p.1.isTrivia = false) :
    solid n (p :: ps) =
      lexemeOf (n + p.2.count '\n') p :: solid (n + p.2.count '\n') ps := by
  have hl : (!(lexemeOf (n + p.2.count '\n') p).tag.isTrivia) = true := by
    rw [lexemeOf, h]
    rfl
  rw [solid, placed, List.filter_cons, hl]
  rfl

end Solid

theorem yield_of_isTrivia {l : Lexeme} (h : l.tag.isTrivia = true) : l.yield = .nothing := by
  unfold Lexeme.yield
  cases ht : l.tag with
  | whitespace | newline | lineComment | blockComment => rfl
  | operator o =>
    rw [ht, (operator_isPlain o).1] at h
    cases h
  | _ =>
    rw [ht] at h
    exact absurd h (by decide)

theorem filterMap_solid {α : Type} (f : Yield → Option α) (hf : f .nothing = none) (n : Nat)
    (ps : List (Tag × List Char)) :
    (solid n ps).filterMap (fun l => f l.yield) = (placed n ps).filterMap fun l => f l.yield := by
  rw [solid, List.filterMap_filter]
  congr 1
  funext l
  cases ht : l.tag.isTrivia with
  | false => rfl
  | true =>
    rw [yield_of_isTrivia ht, hf]
    rfl

theorem tokensOf_solid (n : Nat) (ps : List (Tag × List Char)) :
    tokensOf (solid n ps) = tokensOf (placed n ps) :=
  filterMap_solid Yield.token? rfl n ps

theorem faultsOf_solid (n : Nat) (ps : List (Tag × List Char)) :
    faultsOf (solid n ps) = faultsOf (placed n ps) :=
  filterMap_solid Yield.fault? rfl n ps

theorem count_newline_of_spacing {w : List Char} (h : ∀ c ∈ w, isSpacing c = true) :
    w.count '\n' = 0 := by
  apply List.count_eq_zero_of_not_mem
  intro hm
  exact absurd (h _ hm) (by decide)

/-- A blank in front of a text is a lexeme of its own or joins the blanks there. -/
theorem Lexical.Munched.cons_blank {c : Char} {text : List Char} {ps : List (Tag × List Char)}
    (hc : isSpacing c = true) (h : Munched text ps) :
    ∃ ps', Munched (c :: text) ps' ∧ ∀ n, solid n ps' = solid n ps := by
  have hlong := longest_whitespace hc text
  by_cases hrun : text.takeWhile isSpacing = []
  · rw [hrun] at hlong
    refine ⟨(.whitespace, [c]) :: ps, .cons rfl hlong h, fun n => ?_⟩
    rw [solid_cons_trivia rfl,
      count_newline_of_spacing (List.forall_mem_singleton.mpr hc), Nat.add_zero]
  · cases h with
    | nil => exact absurd rfl hrun
    | @cons _ word rest t ps he hl hm =>
      obtain ⟨x, xs, rfl⟩ : ∃ x xs, text = x :: xs := by
        cases text with
        | nil => exact absurd rfl hrun
        | cons x xs => exact ⟨x, xs, rfl⟩
      have hx : isSpacing x = true := by
        by_contra hx
        exact hrun (List.takeWhile_cons_of_neg hx)
      obtain ⟨rfl, rfl⟩ := hl.unique (longest_whitespace hx xs)
      have hword : (x :: xs).takeWhile isSpacing = x :: xs.takeWhile isSpacing :=
        List.takeWhile_cons_of_pos hx
      rw [hword] at hlong
      refine ⟨(.whitespace, c :: x :: xs.takeWhile isSpacing) :: ps,
        .cons (by rw [he]; rfl) hlong hm, fun n => ?_⟩
      rw [solid_cons_trivia rfl, solid_cons_trivia rfl,
        count_newline_of_spacing hlong.spells.2, count_newline_of_spacing hl.spells.2]

theorem Lexical.Munched.cons_gap {c : Char} {text : List Char} {ps : List (Tag × List Char)}
    (hc : isGap c = true) (h : Munched text ps) :
    ∃ ps', Munched (c :: text) ps' ∧ ∀ n, solid n ps' = solid (n + [c].count '\n') ps := by
  rcases Bool.or_eq_true_iff.mp hc with hb | hn
  · rw [count_newline_of_spacing (List.forall_mem_singleton.mpr hb)]
    exact h.cons_blank hb
  · obtain rfl := beq_iff_eq.mp hn
    exact ⟨(.newline, ['\n']) :: ps, .cons rfl (longest_newline text) h,
      fun n => solid_cons_trivia rfl⟩

/-- A gap in front of a text adds its newlines to the lines of the text and nothing else. -/
theorem Lexical.Munched.append_gap {gap text : List Char} {ps : List (Tag × List Char)}
    (hg : ∀ c ∈ gap, isGap c = true) (h : Munched text ps) :
    ∃ ps', Munched (gap ++ text) ps' ∧ ∀ n, solid n ps' = solid (n + gap.count '\n') ps := by
  induction gap with
  | nil => exact ⟨ps, h, fun _ => rfl⟩
  | cons c gap ih =>
    obtain ⟨hc, hg⟩ := List.forall_mem_cons.mp hg
    obtain ⟨ps₁, hm₁, hs₁⟩ := ih hg
    obtain ⟨ps₂, hm₂, hs₂⟩ := hm₁.cons_gap hc
    refine ⟨ps₂, hm₂, fun n => ?_⟩
    have hcount : (c :: gap).count '\n' = [c].count '\n' + gap.count '\n' := by
      rw [← List.count_append, List.singleton_append]
    rw [hs₂, hs₁, hcount, Nat.add_assoc]

end LoxFront
