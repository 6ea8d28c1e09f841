import LoxFront.Command.Explain
import Mathlib.Data.List.TakeWhile
import Mathlib.Tactic.Common

/-! A text is compared in upper case, and there are characters outside ASCII whose upper-case forms
hold ASCII letters; but none of these forms starts with a character that codes are written in. -/
namespace LoxFront

def Code.characters : List Char :=
  ['E', '0', '1', '2', '3', '4']

/-- A word is the name of a code, with its letter in either case. -/
def Code.Spells (code : Code) (word : List Char) : Prop :=
  word = code.name.toList ∨ word = 'e' :: code.name.toList.tail

namespace Text

/-- Outside ASCII no form in the table starts with a character of a code: either all forms of a run
start beyond ASCII, or the run is one character with another letter at the start of its form. -/
theorem foreign_caseRuns : ∀ r ∈ caseRuns, r.last < 128 ∨ 128 ≤ r.upper ∨
    (r.first = r.last ∧ r.upper ∉ Code.characters.map Char.toNat) := by
  decide +kernel

theorem ofNat_not_mem_characters {n : Nat} (h : n ∉ Code.characters.map Char.toNat) :
    Char.ofNat n ∉ Code.characters := by
  intro hm
  have hcode : (Char.ofNat n).toNat ∈ Code.characters.map Char.toNat := List.mem_map_of_mem hm
  by_cases hvalid : n.isValidChar
  · rw [Char.ofNat, dif_pos hvalid] at hcode
    exact h hcode
  · rw [Char.ofNat, dif_neg hvalid] at hcode
    exact absurd hcode (by decide)

theorem not_mem_characters_of_high {n : Nat} (h : 128 ≤ n) :
    n ∉ Code.characters.map Char.toNat := by
  have hlow : ∀ m ∈ Code.characters.map Char.toNat, m < 128 := by decide
  exact fun hm => absurd (hlow n hm) (Nat.not_lt.mpr h)

theorem exists_upperChar_of_high {c : Char} (h : 128 ≤ c.toNat) :
    ∃ d ds, upperChar c = d :: ds ∧ d ∉ Code.characters := by
  unfold upperChar
  cases hr : caseRuns.find? (·.holds c.toNat) with
  | none =>
    refine ⟨c, [], rfl, fun hm => ?_⟩
    exact not_mem_characters_of_high h (List.mem_map_of_mem hm)
  | some r =>
    have hholds := List.find?_some hr
    simp only [CaseRun.holds, Bool.and_eq_true, decide_eq_true_eq] at hholds
    obtain ⟨⟨hfirst, hlast⟩, -⟩ := hholds
    refine ⟨_, _, rfl, ofNat_not_mem_characters ?_⟩
    rcases foreign_caseRuns r (List.mem_of_find?_eq_some hr) with hlow | hhigh | ⟨hone, hupper⟩
    · omega
    · exact not_mem_characters_of_high (by omega)
    · rwa [show c.toNat - r.first = 0 by omega, Nat.add_zero]

theorem le_first_of_mem_tail : ∀ r ∈ caseRuns.tail, 128 ≤ r.first := by
  decide +kernel

theorem upperChar_of_ascii {c : Char} (h : c.toNat < 128) :
    upperChar c = if 97 ≤ c.toNat ∧ c.toNat ≤ 122 then [Char.ofNat (65 + (c.toNat - 97))]
      else [c] := by
  have hcons : caseRuns = ⟨97, 122, 1, 65, []⟩ :: caseRuns.tail := rfl
  have hrest : caseRuns.tail.find? (·.holds c.toNat) = none := by
    apply List.find?_eq_none.mpr
    intro r hr hholds
    have hfirst := le_first_of_mem_tail r hr
    simp only [CaseRun.holds, Bool.and_eq_true, decide_eq_true_eq] at hholds
    omega
  unfold upperChar
  rw [hcons, List.find?_cons, hrest]
  by_cases hsmall : 97 ≤ c.toNat ∧ c.toNat ≤ 122
  · have hholds : CaseRun.holds ⟨97, 122, 1, 65, []⟩ c.toNat = true := by
      simp [CaseRun.holds, hsmall, Nat.mod_one]
    rw [hholds, if_pos hsmall]
    rfl
  · have hholds : CaseRun.holds ⟨97, 122, 1, 65, []⟩ c.toNat = false := by
      simp only [CaseRun.holds, ← Bool.decide_and, decide_eq_false hsmall, Bool.false_and]
    rw [hholds, if_neg hsmall]

theorem eq_of_form_mem_characters : ∀ n < 128, 97 ≤ n ∧ n ≤ 122 →
    Char.ofNat (65 + (n - 97)) ∈ Code.characters →
      Char.ofNat n = 'e' ∧ Char.ofNat (65 + (n - 97)) = 'E' := by
  decide

theorem upperChar_ne_nil (c : Char) : upperChar c ≠ [] := by
  unfold upperChar
  cases caseRuns.find? (·.holds c.toNat) with
  | none => exact List.cons_ne_nil c []
  | some r => exact List.cons_ne_nil _ _

theorem upperChar_eq_cons {c d : Char} {ds : List Char} (h : upperChar c = d :: ds)
    (hd : d ∈ Code.characters) : ds = [] ∧ (c = d ∨ c = 'e' ∧ d = 'E') := by
  rcases Nat.lt_or_ge c.toNat 128 with hlow | hhigh
  · rw [upperChar_of_ascii hlow] at h
    split_ifs at h with hsmall
    · obtain ⟨rfl, rfl⟩ := List.cons.inj h
      have heq := eq_of_form_mem_characters c.toNat hlow hsmall hd
      rw [Char.ofNat_toNat] at heq
      exact ⟨rfl, .inr heq⟩
    · obtain ⟨rfl, rfl⟩ := List.cons.inj h
      exact ⟨rfl, .inl rfl⟩
  · obtain ⟨x, xs, hx, hforeign⟩ := exists_upperChar_of_high hhigh
    obtain ⟨rfl, -⟩ := List.cons.inj (hx.symm.trans h)
    exact absurd hd hforeign

theorem upperChar_self {d : Char} (hd : d ∈ Code.characters) : upperChar d = [d] := by
  have hcapital : d.toNat < 128 ∧ ¬(97 ≤ d.toNat ∧ d.toNat ≤ 122) := by
    simp only [Code.characters, List.mem_cons, List.not_mem_nil, or_false] at hd
    rcases hd with rfl | rfl | rfl | rfl | rfl | rfl <;> decide
  rw [upperChar_of_ascii hcapital.1, if_neg hcapital.2]

theorem toUpper_cons (c : Char) (cs : List Char) : toUpper (c :: cs) = upperChar c ++ toUpper cs :=
  List.flatMap_cons

theorem exists_of_toUpper_eq_cons {cs ds : List Char} {d : Char} (h : toUpper cs = d :: ds)
    (hd : d ∈ Code.characters) :
    ∃ c rest, cs = c :: rest ∧ (c = d ∨ c = 'e' ∧ d = 'E') ∧ toUpper rest = ds := by
  cases cs with
  | nil => cases h
  | cons c rest =>
    obtain ⟨x, xs, hx⟩ := List.exists_cons_of_ne_nil (upperChar_ne_nil c)
    rw [toUpper_cons, hx, List.cons_append] at h
    obtain ⟨rfl, htail⟩ := List.cons.inj h
    obtain ⟨rfl, heither⟩ := upperChar_eq_cons hx hd
    exact ⟨c, rest, rfl, heither, htail⟩

theorem toUpper_eq_iff {cs ds : List Char} (hds : ∀ d ∈ ds, d ∈ Code.characters ∧ d ≠ 'E') :
    toUpper cs = ds ↔ cs = ds := by
  induction ds generalizing cs with
  | nil =>
    constructor
    · intro h
      cases cs with
      | nil => rfl
      | cons c rest =>
        rw [toUpper_cons] at h
        exact absurd (List.append_eq_nil_iff.mp h).1 (upperChar_ne_nil c)
    · rintro rfl
      rfl
  | cons d ds ih =>
    obtain ⟨⟨hd, hne⟩, hrest⟩ := List.forall_mem_cons.mp hds
    constructor
    · intro h
      obtain ⟨c, rest, rfl, hc | ⟨-, he⟩, hr⟩ := exists_of_toUpper_eq_cons h hd
      · rw [hc, (ih hrest).mp hr]
      · exact absurd he hne
    · rintro rfl
      rw [toUpper_cons, upperChar_self hd, (ih hrest).mpr rfl]
      rfl

theorem exists_eq_append_trim (cs : List Char) : ∃ before after, cs = before ++ trim cs ++ after ∧
    (∀ c ∈ before, isBlank c = true) ∧ (∀ c ∈ after, isBlank c = true) := by
  refine ⟨cs.takeWhile isBlank, ((cs.dropWhile isBlank).reverse.takeWhile isBlank).reverse, ?_,
    fun c hc => List.mem_takeWhile_imp hc, fun c hc => List.mem_takeWhile_imp (List.mem_reverse.mp hc)⟩
  calc
    cs = cs.takeWhile isBlank ++ cs.dropWhile isBlank := List.takeWhile_append_dropWhile.symm
    _ = cs.takeWhile isBlank ++ (trim cs ++
          ((cs.dropWhile isBlank).reverse.takeWhile isBlank).reverse) := by
      have hinner := List.takeWhile_append_dropWhile (p := isBlank)
        (l := (cs.dropWhile isBlank).reverse)
      rw [trim, ← List.reverse_append, hinner, List.reverse_reverse]
    _ = _ := (List.append_assoc _ _ _).symm

theorem dropWhile_blanks {before rest : List Char} {c : Char}
    (hb : ∀ x ∈ before, isBlank x = true) (hc : isBlank c = false) :
    (before ++ c :: rest).dropWhile isBlank = c :: rest := by
  have hneg : ¬isBlank c = true := by
    rw [hc]
    exact Bool.false_ne_true
  rw [List.dropWhile_append_of_pos hb, List.dropWhile_cons_of_neg hneg]

theorem trim_append {before word after : List Char} {c d : Char}
    (hb : ∀ x ∈ before, isBlank x = true) (ha : ∀ x ∈ after, isBlank x = true)
    (hfirst : word.head? = some c) (hc : isBlank c = false) (hlast : word.getLast? = some d)
    (hd : isBlank d = false) : trim (before ++ word ++ after) = word := by
  obtain ⟨rest, rfl⟩ := List.head?_eq_some_iff.mp hfirst
  obtain ⟨init, hinit⟩ := List.getLast?_eq_some_iff.mp hlast
  have hrev : (c :: rest ++ after).reverse = after.reverse ++ d :: init.reverse := by
    rw [hinit, List.reverse_append, List.reverse_append]
    rfl
  rw [trim, List.append_assoc, List.cons_append, dropWhile_blanks hb hc, ← List.cons_append, hrev,
    dropWhile_blanks (fun x hx => ha x (List.mem_reverse.mp hx)) hd, hinit, List.reverse_cons,
    List.reverse_reverse]

end Text

open Text

namespace Code

theorem exists_name_eq (code : Code) :
    ∃ ds, code.name.toList = 'E' :: ds ∧ ∀ d ∈ ds, d ∈ characters ∧ d ≠ 'E' := by
  cases code with
  | e0001 => exact ⟨['0', '0', '0', '1'], rfl, by simp [characters]⟩
  | e0002 => exact ⟨['0', '0', '0', '2'], rfl, by simp [characters]⟩
  | e0003 => exact ⟨['0', '0', '0', '3'], rfl, by simp [characters]⟩
  | e0004 => exact ⟨['0', '0', '0', '4'], rfl, by simp [characters]⟩

theorem toUpper_eq_name_iff {code : Code} {word : List Char} :
    toUpper word = code.name.toList ↔ code.Spells word := by
  obtain ⟨ds, hname, hds⟩ := code.exists_name_eq
  have hE : 'E' ∈ characters := List.mem_cons_self
  have he : upperChar 'e' = ['E'] := upperChar_of_ascii (by decide)
  rw [Spells, hname, List.tail_cons]
  constructor
  · intro h
    obtain ⟨c, rest, rfl, hc, hr⟩ := exists_of_toUpper_eq_cons h hE
    rw [(toUpper_eq_iff hds).mp hr]
    exact hc.imp (fun h => by rw [h]) (fun h => by rw [h.1])
  · rintro (rfl | rfl)
    · rw [toUpper_cons, upperChar_self hE, (toUpper_eq_iff hds).mpr rfl]
      rfl
    · rw [toUpper_cons, he, (toUpper_eq_iff hds).mpr rfl]
      rfl

theorem find?_name_eq_some_iff {word : String} {code : Code} :
    (all.find? fun c => c.name == word) = some code ↔ code.name = word := by
  constructor
  · intro h
    have hname := List.find?_some h
    exact beq_iff_eq.mp hname
  · rintro rfl
    cases code with
    | e0001 | e0002 | e0003 | e0004 => decide

theorem ofText?_eq_some_iff {text : String} {code : Code} :
    ofText? text = some code ↔ code.Spells (trim text.toList) := by
  unfold ofText?
  rw [find?_name_eq_some_iff, ← toUpper_eq_name_iff, ← String.toList_inj, String.toList_ofList,
    eq_comm]

theorem Spells.trim_append {code : Code} {before word after : List Char} (h : code.Spells word)
    (hb : ∀ c ∈ before, isBlank c = true) (ha : ∀ c ∈ after, isBlank c = true) :
    trim (before ++ word ++ after) = word := by
  cases code with
  | e0001 | e0002 | e0003 | e0004 =>
    rcases h with rfl | rfl
    · exact Text.trim_append hb ha rfl rfl rfl rfl
    · exact Text.trim_append hb ha rfl rfl rfl rfl

end Code

theorem Handbook.lookup?_eq_entry (code : Code) : lookup? code = some (entry code) := by
  cases code with
  | e0001 | e0002 | e0003 | e0004 => rfl

theorem Handbook.first_prefix_page (first : String) (lines : List String) :
    first.toList <+: (page (first :: lines)).toList := by
  rw [page, List.map_cons, String.join_cons, String.toList_append, String.toList_append,
    List.append_assoc]
  exact List.prefix_append _ _

/-- Every page opens with the code it is about. -/
theorem Handbook.entry_heading (code : Code) :
    ("# " ++ code.name).toList <+: (entry code).toList := by
  cases code with
  | e0001 | e0002 | e0003 | e0004 =>
    exact List.IsPrefix.trans (by decide +kernel) (first_prefix_page _ _)

/-- A text names a code exactly if it is the code's name with the letter in either case and blanks
around it or none. Every other text is given back as it came. -/
theorem explain_accepts_names (text : String) :
    (∀ code, Code.ofText? text = some code ↔
      ∃ before word after, text.toList = before ++ word ++ after ∧
        (∀ c ∈ before, isBlank c = true) ∧ (∀ c ∈ after, isBlank c = true) ∧ code.Spells word) ∧
    explain text =
      match Code.ofText? text with
      | some code => .ok (Handbook.entry code)
      | none => .error (.unknownCode text) := by
  constructor
  · intro code
    rw [Code.ofText?_eq_some_iff]
    constructor
    · intro h
      obtain ⟨before, after, he, hb, ha⟩ := exists_eq_append_trim text.toList
      exact ⟨before, trim text.toList, after, he, hb, ha, h⟩
    · rintro ⟨before, word, after, he, hb, ha, h⟩
      rwa [he, h.trim_append hb ha]
  · unfold explain
    cases Code.ofText? text with
    | none => rfl
    | some code => simp only [Handbook.lookup?_eq_entry]

/-- A ligature, a dotless letter and a blank inside are no part of a name. -/
example : (["\u2003e0002\n", "E000２", "ﬀ0002", "E 0002"].map Code.ofText?) =
    [some .e0002, none, none, none] := by
  decide +kernel

end LoxFront
