import LoxFront.Proofs.Longest

/-! A word that can be made longer at all can be made so by one or two characters, and never across
a newline. So a longest word stays the longest if the text changes further on. -/
namespace LoxFront

def Tag.isOpen : Tag → Bool
  | unterminatedString | unterminatedBlockComment | malformedBlockComment => true
  | _ => false

namespace Lexical
open Runs

/-- The characters that may separate tokens and make none. -/
def isGap (c : Char) : Bool :=
  isSpacing c || c == '\n'

/-- A character that cannot lie behind a word inside a longer one. -/
def EndsAt (t : Tag) (c : Char) : Prop :=
  c = '\n' ∨ t.isTrivia = false ∧ isGap c = true

theorem isGap_of_isWord {c : Char} (h : isWord c = true) : isGap c = false := by
  rw [Bool.eq_false_iff]
  intro hg
  simp only [isGap, isSpacing, Bool.or_eq_true, beq_iff_eq] at hg
  rcases hg with ((rfl | rfl) | rfl) | rfl <;> exact absurd h (by decide)

theorem not_endsAt_of_isGap {t : Tag} {c : Char} (h : isGap c = false) : ¬ EndsAt t c := by
  rintro (rfl | ⟨-, hg⟩)
  · exact absurd h (by decide)
  · rw [h] at hg
    exact Bool.false_ne_true hg

structure Extension (t : Tag) (w v u : List Char) : Prop where
  starts : u <+: v
  ne_nil : u ≠ []
  short : u.length ≤ 2
  longer : ∃ t' : Tag, t'.Spells (w ++ u)
  inside : ∀ c ∈ u, ¬ EndsAt t c

theorem extension_singleton {t : Tag} (t' : Tag) {w : List Char} {d : Char}
    (hs : t'.Spells (w ++ [d])) (hd : ¬ EndsAt t d) (r : List Char) : Extension t w (d :: r) [d] :=
  ⟨⟨r, rfl⟩, List.cons_ne_nil _ _, Nat.le_succ 1, ⟨t', hs⟩, List.forall_mem_singleton.mpr hd⟩

theorem initial_eq_of_append {t t' : Tag} {w v : List Char} (hs : t.Spells w)
    (hs' : t'.Spells (w ++ v)) : t'.initial = t.initial := by
  obtain ⟨c, cs, rfl, hi⟩ := exists_cons_of_spells hs
  obtain ⟨d, ds, he, hi'⟩ := exists_cons_of_spells hs'
  obtain ⟨rfl, -⟩ := List.cons.inj he
  exact hi'.symm.trans hi

theorem number_extension {w v : List Char} (hs : Tag.Spells .number w)
    (hs' : Tag.Spells .number (w ++ v)) (hv : v ≠ []) : ∃ u, Extension .number w v u := by
  obtain ⟨d, r, rfl⟩ := List.exists_cons_of_ne_nil hv
  have hinside {x : Char} (hx : x.isDigit = true) : ¬ EndsAt .number x := by
    apply not_endsAt_of_isGap
    apply isGap_of_isWord
    rw [isWord, hx, Bool.or_true]
  have hsnoc {ds : List Char} {x : Char} (hds : IsDigits ds) (hx : x.isDigit = true) :
      IsDigits (ds ++ [x]) :=
    ⟨List.append_ne_nil_of_right_ne_nil ds (List.cons_ne_nil x []),
      List.forall_mem_append.mpr ⟨hds.2, List.forall_mem_singleton.mpr hx⟩⟩
  by_cases hd : d.isDigit = true
  · -- A digit always goes on with the number.
    refine ⟨[d], extension_singleton .number ?_ (hinside hd) r⟩
    obtain ⟨ds, hds, rfl | ⟨es, hes, rfl⟩⟩ := hs
    · exact ⟨_, hsnoc hds hd, Or.inl rfl⟩
    · refine ⟨ds, hds, Or.inr ⟨_, hsnoc hes hd, ?_⟩⟩
      rw [List.append_assoc, List.cons_append]
  · have hdf : d.isDigit = false := Bool.eq_false_iff.mpr hd
    obtain ⟨ds', hds', he | ⟨es', hes', he⟩⟩ := hs'
    · exact absurd (hds'.2 d (by rw [← he]; simp)) hd
    · obtain ⟨ds, hds, rfl | ⟨es, hes, rfl⟩⟩ := hs
      · -- A dot goes on with it if a digit follows.
        obtain ⟨rfl, rfl, rfl⟩ := append_cons_inj he hds.2 hds'.2 hdf (by decide)
        obtain ⟨e, r, rfl⟩ := List.exists_cons_of_ne_nil hes'.1
        have hee := hes'.2 e List.mem_cons_self
        refine ⟨['.', e], ⟨r, rfl⟩, List.cons_ne_nil _ _, Nat.le_refl 2, ⟨.number, ?_⟩, ?_⟩
        · exact ⟨_, hds, Or.inr ⟨[e], ⟨List.cons_ne_nil _ _, List.forall_mem_singleton.mpr hee⟩,
            rfl⟩⟩
        · exact List.forall_mem_cons.mpr ⟨not_endsAt_of_isGap (by decide),
            List.forall_mem_singleton.mpr (hinside hee)⟩
      · rw [List.append_assoc, List.cons_append] at he
        obtain ⟨-, -, rfl⟩ := append_cons_inj he hds.2 hds'.2 (by decide) (by decide)
        exact absurd (hes'.2 d (by simp)) hd

theorem slash_extension {t : Tag} {v : List Char} (hi : t.initial = .slash)
    (hs : t.Spells ('/' :: v)) (hv : v ≠ []) : ∃ u, Extension (.operator .slash) ['/'] v u := by
  have hopen : Tag.Spells .unterminatedBlockComment ['/', '*'] := by
    refine ⟨[], rfl, ?_, by decide⟩
    rw [List.infix_nil]
    exact List.cons_ne_nil _ _
  have hstar (body : List Char) :
      Extension (.operator .slash) ['/'] ('*' :: body) ['*'] :=
    extension_singleton _ hopen (not_endsAt_of_isGap (by decide)) body
  rcases slash_forms hi hs with rfl | ⟨body, rfl, -⟩ | ⟨body, rfl, -⟩ | ⟨body, rfl, -⟩
  · exact absurd rfl hv
  · have hline : Tag.Spells .lineComment ['/', '/'] := ⟨[], List.not_mem_nil, rfl⟩
    exact ⟨['/'], extension_singleton _ hline (not_endsAt_of_isGap (by decide)) body⟩
  · exact ⟨['*'], hstar _⟩
  · exact ⟨['*'], hstar _⟩

theorem operator_extension {o : Operator} {t : Tag} {w v : List Char}
    (hs : Tag.Spells (.operator o) w) (hs' : t.Spells (w ++ v)) (hv : v ≠ []) :
    ∃ u, Extension (.operator o) w v u := by
  have hi := initial_eq_of_append hs hs'
  obtain rfl : w = o.spelling.toList := hs
  by_cases ho : o = .slash
  · subst ho
    exact slash_extension hi hs' hv
  · have hmark : (Tag.operator o).initial = .mark (first o) := by
      cases o with
      | slash => exact absurd rfl ho
      | _ => rfl
    rw [hmark] at hi
    have hshort (p : Operator) :
        p.spelling.toList.length ≤ 2 ∧ p.spelling.toList.all (fun c => !isGap c) = true := by
      cases p <;> decide
    cases t with
    | operator p =>
      have he : o.spelling.toList ++ v = p.spelling.toList := hs'
      obtain ⟨hlen, hgap⟩ := hshort p
      rw [← he] at hlen hgap
      rw [List.all_eq_true] at hgap
      refine ⟨v, List.prefix_rfl, hv, ?_, ⟨_, hs'⟩, ?_⟩
      · rw [List.length_append] at hlen
        omega
      · intro c hc
        apply not_endsAt_of_isGap
        have hc := hgap c (List.mem_append_right _ hc)
        rwa [Bool.not_eq_true'] at hc
    | _ => cases hi

/-- A word that is no open lexeme and that can be made longer can be made so by one or two characters,
none of which ends it. -/
theorem exists_extension {t t' : Tag} {w v : List Char} (ht : t.isOpen = false)
    (hs : t.Spells w) (hs' : t'.Spells (w ++ v)) (hv : v ≠ []) : ∃ u, Extension t w v u := by
  have hi := initial_eq_of_append hs hs'
  obtain ⟨d, r, hdr⟩ := List.exists_cons_of_ne_nil hv
  cases t with
  | whitespace =>
    obtain rfl : t' = .whitespace := eq_of_isSole rfl hi
    subst hdr
    have hd : isSpacing d = true := hs'.2 d (by simp)
    refine ⟨[d], extension_singleton .whitespace ⟨by simp, ?_⟩ ?_ r⟩
    · exact List.forall_mem_append.mpr ⟨hs.2, List.forall_mem_singleton.mpr hd⟩
    · rintro (rfl | ⟨hf, -⟩)
      · exact absurd hd (by decide)
      · exact absurd hf (by decide)
  | newline =>
    obtain rfl : t' = .newline := eq_of_isSole rfl hi
    obtain rfl : w = ['\n'] := hs
    exact absurd (List.cons.inj (show '\n' :: v = ['\n'] from hs')).2 hv
  | ident =>
    obtain rfl : t' = .ident := eq_of_isSole rfl hi
    subst hdr
    obtain ⟨c, cs, rfl, hc, hcs⟩ := hs
    obtain ⟨c', cs', he, -, hcs'⟩ := hs'
    rw [← (List.cons.inj he).2] at hcs'
    have hd := hcs' d (by simp)
    refine ⟨[d], extension_singleton .ident ?_ (not_endsAt_of_isGap (isGap_of_isWord hd)) r⟩
    exact ⟨c, _, rfl, hc, List.forall_mem_append.mpr ⟨hcs, List.forall_mem_singleton.mpr hd⟩⟩
  | number =>
    obtain rfl : t' = .number := eq_of_isSole rfl hi
    exact number_extension hs hs' hv
  | operator o => exact operator_extension hs hs' hv
  | string =>
    -- The closing quote is the first one behind the opening one, so nothing goes on behind it.
    obtain ⟨body, hb, rfl⟩ := hs
    rcases quote_forms hi hs' with hno | ⟨body', he, hb'⟩
    · exact absurd (by simp) hno
    · have hquotes : body ++ '"' :: v = body' ++ ['"'] := by
        rw [← he, List.append_cons]
        rfl
      exact absurd (split_unique hquotes hb hb').2 hv
  | lineComment =>
    subst hdr
    obtain ⟨body, hb, rfl⟩ := hs
    have hi' : t'.initial = .slash := hi
    rcases slash_forms hi' hs' with he | ⟨body', he, hb'⟩ | ⟨body', he, -⟩ | ⟨body', he, -⟩
    · cases he
    · have hd : '\n' ≠ d := by
        rintro rfl
        apply hb'
        rw [← (List.cons.inj he).2]
        exact List.mem_append_right body List.mem_cons_self
      refine ⟨[d], extension_singleton .lineComment ⟨body ++ [d], ?_, rfl⟩ ?_ r⟩
      · rw [List.mem_append, List.mem_singleton]
        exact not_or.mpr ⟨hb, hd⟩
      · rintro (h | ⟨hf, -⟩)
        · exact hd h.symm
        · exact absurd hf (by decide)
    · exact absurd (List.cons.inj he).1 (by decide)
    · exact absurd (List.cons.inj he).1 (by decide)
  | blockComment =>
    obtain ⟨body, rfl, hb⟩ := hs
    have hi' : t'.initial = .slash := hi
    rcases slash_forms hi' hs' with he | ⟨body', he, -⟩ | ⟨body', he, hb'⟩ | ⟨body', he, hb'⟩
    · cases he
    · exact absurd (List.cons.inj he).1 (by decide)
    · exact absurd (hb' body v (List.cons.inj he).2.symm) hv
    · rw [← (List.cons.inj he).2] at hb'
      exact absurd ⟨body, v, rfl⟩ hb'
  | invalidChar =>
    obtain ⟨c, rfl, -⟩ := hs
    cases t' with
    | invalidChar =>
      obtain ⟨c', he, -⟩ := hs'
      exact absurd (List.cons.inj he).2 hv
    | operator o => cases o <;> cases hi
    | eof => exact hs'.elim
    | _ => cases hi
  | eof => exact hs.elim
  | unterminatedString | unterminatedBlockComment | malformedBlockComment => cases ht

/-- Two texts that a word of a tag cannot tell apart by looking ahead. They agree on two characters, or
the second ends, or ends the word, where they part. -/
def Alike (t : Tag) (rest rest' : List Char) : Prop :=
  ∃ u r r', rest = u ++ r ∧ rest' = u ++ r' ∧ (2 ≤ u.length ∨ ∀ c ∈ r'.head?, EndsAt t c)

theorem alike_of_endsAt {t : Tag} {rest rest' : List Char} (h : ∀ c ∈ rest'.head?, EndsAt t c) :
    Alike t rest rest' :=
  ⟨[], rest, rest', rfl, rfl, Or.inr h⟩

theorem Alike.append {t : Tag} {rest rest' : List Char} (h : Alike t rest rest')
    (w : List Char) : Alike t (w ++ rest) (w ++ rest') := by
  obtain ⟨u, r, r', rfl, rfl, hu⟩ := h
  refine ⟨w ++ u, r, r', (List.append_assoc _ _ _).symm, (List.append_assoc _ _ _).symm, ?_⟩
  apply hu.imp_left
  intro hlen
  rw [List.length_append]
  omega

theorem Longest.congr {t : Tag} {w rest rest' : List Char} (h : Longest (w ++ rest) t w)
    (ht : t.isOpen = false) (ha : Alike t rest rest') : Longest (w ++ rest') t w := by
  refine ⟨List.prefix_append _ _, h.spells, ?_⟩
  intro t' w' hp hs'
  rcases List.prefix_or_prefix_of_prefix (List.prefix_append w rest') hp with ⟨v, rfl⟩ | hle
  · by_cases hv : v = []
    · rw [hv, List.append_nil]
    · -- A short start of what makes the word longer in the one text lies in the other text too.
      obtain ⟨u, hu⟩ := exists_extension ht h.spells hs' hv
      obtain ⟨m, r, r', rfl, rfl, hm⟩ := ha
      have hur : u <+: m ++ r' := hu.starts.trans ((List.prefix_append_right_inj w).mp hp)
      have hum : u <+: m := by
        rcases List.prefix_or_prefix_of_prefix hur (List.prefix_append m r') with h1 | ⟨n, rfl⟩
        · exact h1
        · cases n with
          | nil => rw [List.append_nil]
          | cons x n =>
            obtain ⟨s, hs⟩ := (List.prefix_append_right_inj m).mp hur
            rcases hm with hm | hm
            · have hshort := hu.short
              simp only [List.length_append, List.length_cons] at hshort
              omega
            · exact absurd (hm x (by rw [← hs]; rfl)) (hu.inside x (by simp))
      obtain ⟨t'', hlonger⟩ := hu.longer
      have hpre : w ++ u <+: w ++ (m ++ r) :=
        (List.prefix_append_right_inj w).mpr (hum.trans (List.prefix_append m r))
      have hle := h.le t'' _ hpre hlonger
      rw [List.length_append] at hle
      exact absurd (List.eq_nil_of_length_eq_zero (by omega)) hu.ne_nil
  · exact hle.length_le

theorem exists_spells_open_comment {body : List Char} (hb : ¬ closing <:+: body) (d : Char) :
    ∃ t : Tag, t.Spells ('/' :: '*' :: (body ++ [d])) := by
  have hlast (us vs : List Char) (h : body ++ [d] = us ++ closing ++ vs) : vs = [] := by
    rcases List.eq_nil_or_concat vs with hnil | ⟨vs, x, rfl⟩
    · exact hnil
    · rw [List.concat_eq_append, ← List.append_assoc] at h
      obtain ⟨rfl, -⟩ := List.append_inj' h rfl
      exact absurd ⟨us, vs, rfl⟩ hb
  by_cases hc : closing <:+: body ++ [d]
  · obtain ⟨us, vs, h⟩ := hc
    obtain rfl := hlast us vs h.symm
    rw [List.append_nil] at h
    rw [← h] at hlast ⊢
    exact ⟨.blockComment, us, rfl, hlast⟩
  · by_cases hstar : (body ++ [d]).getLast? = some '*'
    · exact ⟨.malformedBlockComment, _, rfl, hc, hstar⟩
    · exact ⟨.unterminatedBlockComment, _, rfl, hc, hstar⟩

theorem exists_spells_of_isOpen {t : Tag} {w : List Char} (ht : t.isOpen = true)
    (hs : t.Spells w) (d : Char) : ∃ t' : Tag, t'.Spells (w ++ [d]) := by
  cases t with
  | unterminatedString =>
    obtain ⟨body, hb, rfl⟩ := hs
    by_cases hd : '"' = d
    · subst hd
      exact ⟨.string, body, hb, rfl⟩
    · refine ⟨.unterminatedString, body ++ [d], ?_, rfl⟩
      rw [List.mem_append, List.mem_singleton]
      exact not_or.mpr ⟨hb, hd⟩
  | unterminatedBlockComment | malformedBlockComment =>
    obtain ⟨body, rfl, hb, -⟩ := hs
    exact exists_spells_open_comment hb d
  | _ => cases ht

/-- An open lexeme takes all that is left of a text. -/
theorem Longest.rest_eq_nil {t : Tag} {w rest : List Char} (h : Longest (w ++ rest) t w)
    (ht : t.isOpen = true) : rest = [] := by
  cases rest with
  | nil => rfl
  | cons d r =>
    obtain ⟨t', hs⟩ := exists_spells_of_isOpen ht h.spells d
    have hle := h.le t' (w ++ [d]) ⟨r, by rw [List.append_assoc]; rfl⟩ hs
    rw [List.length_append, List.length_singleton] at hle
    omega

end Lexical

end LoxFront
