import LoxFront.Proofs.Passage
import Mathlib.Tactic.Common

namespace LoxFront.Cursor
open Runs

/-- The cursor after single steps up to the first place that satisfies a condition, or to the end. -/
def stepUntil (p : Cursor → Bool) (c : Cursor) : Cursor :=
  if c.rest = [] ∨ p c = true then c else stepUntil p c.advance
termination_by c.rest.length
decreasing_by exact length_rest_advance_lt c (not_or.mp ‹_›).1

/-- The byte ahead is in the source and is the given one. -/
def standsOn (b : UInt8) (c : Cursor) : Bool :=
  !c.atEnd && c.current == b

def standsOnPair (first second : UInt8) (c : Cursor) : Bool :=
  2 ≤ c.rest.length && c.current == first && c.peek == second

theorem standsOn_iff {b : UInt8} {c : Cursor} :
    c.standsOn b = true ↔ ∃ post, c.rest = b :: post := by
  unfold standsOn atEnd current
  cases c.rest with
  | nil => simp
  | cons x post => simp

theorem standsOnPair_iff {first second : UInt8} {c : Cursor} :
    c.standsOnPair first second = true ↔ ∃ post, c.rest = first :: second :: post := by
  unfold standsOnPair current peek
  rcases c.rest with - | ⟨x, - | ⟨y, post⟩⟩
  · simp
  · simp
  · simp

theorem Passed.unique {c d e : Cursor} {skipped : List UInt8} (hd : c.Passed skipped d)
    (he : c.Passed skipped e) (hl : c.line.toNat + skipped.count Byte.newline < UInt32.size) :
    d = e := by
  have hpos : d.pos = e.pos := hd.pos.trans he.pos.symm
  have hrest : d.rest = e.rest := hd.rest_eq he.rest
  have hline : d.line = e.line := UInt32.toNat_inj.mp ((hd.line hl).trans (he.line hl).symm)
  obtain ⟨dpos, drest, dline⟩ := d
  simp only at hpos hrest hline
  rw [hpos, hrest, hline]

/-- Steps pass the bytes at which the condition fails, up to the first place where it holds or nothing
is left. -/
theorem passed_stepUntil {p : Cursor → Bool} {c : Cursor} {skipped post : List UInt8}
    (h : c.rest = skipped ++ post)
    (hskip : ∀ (d : Cursor) (us vs : List UInt8), skipped = us ++ vs → vs ≠ [] →
      d.rest = vs ++ post → p d = false)
    (hstop : ∀ d : Cursor, d.rest = post → post = [] ∨ p d = true) :
    c.Passed skipped (c.stepUntil p) := by
  induction skipped generalizing c with
  | nil =>
    rw [List.nil_append] at h
    have hhere : c.rest = [] ∨ p c = true := by
      rw [h]
      exact hstop c h
    rw [stepUntil, if_pos hhere]
    exact Passed.refl c
  | cons b skipped ih =>
    have hnot : ¬ (c.rest = [] ∨ p c = true) := by
      rw [hskip c [] (b :: skipped) rfl (List.cons_ne_nil _ _) h, h]
      simp
    have hstep := passed_advance h
    rw [stepUntil, if_neg hnot]
    refine hstep.trans (ih (hstep.rest_eq h) fun d us vs hs => hskip d (b :: us) vs ?_)
    rw [hs, List.cons_append]

section
variable {c : Cursor} (h : c.line.toNat + c.rest.count Byte.newline < UInt32.size)
include h

theorem eq_stepUntil {p : Cursor → Bool} {d : Cursor} {skipped post : List UInt8}
    (hd : c.Passed skipped d) (hpost : d.rest = post)
    (hskip : ∀ (e : Cursor) (us vs : List UInt8), skipped = us ++ vs → vs ≠ [] →
      e.rest = vs ++ post → p e = false)
    (hstop : ∀ e : Cursor, e.rest = post → post = [] ∨ p e = true) : d = c.stepUntil p := by
  have hrest : c.rest = skipped ++ post := by
    rw [← hpost]
    exact hd.rest
  apply hd.unique (passed_stepUntil hrest hskip hstop)
  rw [hrest, List.count_append] at h
  omega

theorem eq_stepUntil_of_takeWhile {b : UInt8} {d : Cursor}
    (hd : c.Passed (c.rest.takeWhile (· != b)) d) : d = c.stepUntil (standsOn b) := by
  have hrest : d.rest = c.rest.dropWhile (· != b) :=
    hd.rest_eq (List.takeWhile_append_dropWhile).symm
  apply eq_stepUntil h hd hrest
  · intro e us vs hs hv he
    obtain ⟨v, vs, rfl⟩ := List.exists_cons_of_ne_nil hv
    rw [Bool.eq_false_iff]
    intro hp
    obtain ⟨post, hpost⟩ := standsOn_iff.mp hp
    obtain ⟨rfl, -⟩ := List.cons.inj (he.symm.trans hpost)
    apply not_mem_takeWhile_bne v c.rest
    rw [hs]
    exact List.mem_append_right us List.mem_cons_self
  · intro e he
    have hend := List.head?_dropWhile_not (· != b) c.rest
    cases hdrop : c.rest.dropWhile (· != b) with
    | nil => exact .inl rfl
    | cons x post =>
      rw [hdrop] at hend he
      obtain rfl : x = b := bne_eq_false_iff_eq.mp hend
      exact .inr (standsOn_iff.mpr ⟨post, he⟩)

theorem seek_eq_stepUntil (b : UInt8) :
    c.seek b = ((c.stepUntil (standsOn b)).standsOn b, c.stepUntil (standsOn b)) := by
  have hpass : c.Passed (c.rest.takeWhile (· != b)) (c.seek b).2 := by
    have hp := passed_pass c (c.rest.takeWhile (· != b)).length
    rwa [take_length_takeWhile] at hp
  have hend := eq_stepUntil_of_takeWhile h hpass
  refine Prod.ext ?_ hend
  rw [← hend]
  change c.rest.contains b = (c.seek b).2.standsOn b
  rw [Bool.eq_iff_iff, List.contains_iff_mem, standsOn_iff]
  constructor
  · intro hb
    obtain ⟨pre, post, hr, hpre⟩ := List.eq_append_cons_of_mem hb
    rw [hr, takeWhile_bne_append hpre] at hpass
    exact ⟨post, hpass.rest_eq hr⟩
  · rintro ⟨post, hpost⟩
    rw [hpass.rest, hpost]
    exact List.mem_append_right _ List.mem_cons_self

theorem skipLine_eq_stepUntil : c.skipLine = c.stepUntil (standsOn Byte.newline) :=
  eq_stepUntil_of_takeWhile h (passed_skipWhile rfl)

theorem seekPair_eq_stepUntil (first second : UInt8) :
    c.seekPair first second =
      ((c.stepUntil (standsOnPair first second)).standsOnPair first second,
        c.stepUntil (standsOnPair first second)) := by
  unfold seekPair
  cases hp : pairIdx? first second 0 c.rest with
  | some n =>
    obtain ⟨pre, post, hr, hn, hfirst⟩ := pairIdx?_eq_some hp
    obtain rfl : n = pre.length := hn.trans (Nat.zero_add _)
    have hpass : c.Passed pre (c.pass pre.length) := by
      have hpn := passed_pass c pre.length
      rwa [hr, List.take_left] at hpn
    have hrest : (c.pass pre.length).rest = first :: second :: post := hpass.rest_eq hr
    have hend : c.pass pre.length = c.stepUntil (standsOnPair first second) := by
      apply eq_stepUntil h hpass hrest
      · intro e us vs hs hv he
        -- A pair on the way would be an earlier occurrence, also if it overlaps the first one.
        rw [Bool.eq_false_iff]
        intro hon
        obtain ⟨post', hpost⟩ := standsOnPair_iff.mp hon
        have hle := hfirst us post' (by rw [hr, hs, List.append_assoc, ← he, hpost])
        have hpos := List.length_pos_iff.mpr hv
        rw [hs, List.length_append] at hle
        omega
      · intro e he
        exact .inr (standsOnPair_iff.mpr ⟨post, he⟩)
    simp only
    rw [← hend]
    exact Prod.ext (standsOnPair_iff.mpr ⟨post, hrest⟩).symm rfl
  | none =>
    have hpass : c.Passed c.rest (c.pass c.rest.length) := by
      have hpn := passed_pass c c.rest.length
      rwa [List.take_length] at hpn
    have hrest : (c.pass c.rest.length).rest = [] := hpass.rest_eq (List.append_nil _).symm
    have hend : c.pass c.rest.length = c.stepUntil (standsOnPair first second) := by
      apply eq_stepUntil h hpass hrest
      · intro e us vs hs _ he
        -- A pair cut by the end is none, since the end mark behind it is not in the source.
        rw [Bool.eq_false_iff]
        intro hon
        obtain ⟨post, hpost⟩ := standsOnPair_iff.mp hon
        rw [List.append_nil] at he
        exact pairIdx?_eq_none hp us post (by rw [hs, ← he, hpost])
      · intro e _
        exact .inl rfl
    simp only
    rw [← hend]
    refine Prod.ext (Eq.symm ?_) rfl
    rw [Bool.eq_false_iff]
    intro hon
    obtain ⟨post, hpost⟩ := standsOnPair_iff.mp hon
    rw [hrest] at hpost
    cases hpost

end

/-- From every cursor the three searches end where single steps end, and say whether these have come to
stand on what is looked for. The bytes may be any, also equal ones, newlines and the end mark. -/
theorem searches_eq_stepping (c : Cursor)
    (h : c.line.toNat + c.rest.count Byte.newline < UInt32.size) (a b : UInt8) :
    c.seek a = ((c.stepUntil (standsOn a)).standsOn a, c.stepUntil (standsOn a)) ∧
    c.seekPair a b =
      ((c.stepUntil (standsOnPair a b)).standsOnPair a b, c.stepUntil (standsOnPair a b)) ∧
    c.skipLine = c.stepUntil (standsOn Byte.newline) :=
  ⟨seek_eq_stepUntil h a, seekPair_eq_stepUntil h a b, skipLine_eq_stepUntil h⟩

/-- The last of two stars stands in front of the end, and that is no pair of a star and the end mark. -/
theorem searches_eq_stepping_star :
    (ofText "\n**").line.toNat + (ofText "\n**").rest.count Byte.newline < UInt32.size ∧
      (ofText "\n**").seekPair Byte.star Byte.endMark = (false, ⟨3, [], 2⟩) ∧
      (ofText "\n**").stepUntil (standsOnPair Byte.star Byte.endMark) = ⟨3, [], 2⟩ := by
  have hroom : (ofText "\n**").line.toNat + (ofText "\n**").rest.count Byte.newline < UInt32.size := by
    decide
  have hseek : (ofText "\n**").seekPair Byte.star Byte.endMark = (false, ⟨3, [], 2⟩) := by
    decide
  have hstep := (searches_eq_stepping _ hroom Byte.star Byte.endMark).2.1
  rw [hseek] at hstep
  exact ⟨hroom, hseek, (congrArg Prod.snd hstep).symm⟩

end LoxFront.Cursor
