import LoxFront.Proofs.Language
import LoxFront.Proofs.Runs

/-! Why nothing longer fits: a run stops at the first character outside its class, a closed lexeme
at its first closing mark, and an open one takes all that is left. -/
namespace LoxFront.Lexical
open Runs

/-- No tag spells a longer start of the text than this word, and the tag spells this one. -/
structure Longest (text : List Char) (t : Tag) (word : List Char) : Prop where
  starts : word <+: text
  spells : t.Spells word
  le : ∀ t' w, w <+: text → Tag.Spells t' w → w.length ≤ word.length

/-- A text as a row of longest words, each with its tag. -/
inductive Munched : List Char → List (Tag × List Char) → Prop where
  | nil : Munched [] []
  | cons {text word rest : List Char} {t : Tag} {pieces : List (Tag × List Char)} :
    text = word ++ rest → Longest text t word → Munched rest pieces →
      Munched text ((t, word) :: pieces)

theorem Longest.unique {text word word' : List Char} {t t' : Tag} (h : Longest text t word)
    (h' : Longest text t' word') : t = t' ∧ word = word' := by
  have hl : word.length = word'.length :=
    Nat.le_antisymm (h'.le t word h.starts h.spells) (h.le t' word' h'.starts h'.spells)
  have hw : word = word' :=
    (List.prefix_of_prefix_length_le h.starts h'.starts (Nat.le_of_eq hl)).eq_of_length hl
  refine ⟨eq_of_spells h.spells ?_, hw⟩
  rw [hw]
  exact h'.spells

theorem Longest.ne_nil {text word : List Char} {t : Tag} (h : Longest text t word) :
    word ≠ [] := by
  obtain ⟨c, cs, rfl, -⟩ := exists_cons_of_spells h.spells
  exact List.cons_ne_nil c cs

theorem Munched.eq_nil {pieces : List (Tag × List Char)} (h : Munched [] pieces) : pieces = [] := by
  cases h with
  | nil => rfl
  | cons he hl _ => exact absurd (List.append_eq_nil_iff.mp he.symm).1 hl.ne_nil

theorem Munched.unique {text : List Char} {pieces pieces' : List (Tag × List Char)}
    (h : Munched text pieces) (h' : Munched text pieces') : pieces = pieces' := by
  induction h generalizing pieces' with
  | nil => exact h'.eq_nil.symm
  | cons he hl hm ih =>
    cases h' with
    | nil => exact absurd (List.append_eq_nil_iff.mp he.symm).1 hl.ne_nil
    | cons he' hl' hm' =>
      obtain ⟨rfl, rfl⟩ := hl.unique hl'
      obtain rfl := List.append_cancel_left (he.symm.trans he')
      rw [ih hm']

/-- Only the tags whose words may start with the first character of a text have to be compared. -/
theorem longest_of_initial {c : Char} {cs word : List Char} {t : Tag} (hw : word <+: cs)
    (hs : t.Spells (c :: word))
    (h : ∀ (t' : Tag) w, t'.initial = initial c → w <+: cs → t'.Spells (c :: w) →
      w.length ≤ word.length) : Longest (c :: cs) t (c :: word) := by
  refine ⟨(List.prefix_cons_inj c).mpr hw, hs, ?_⟩
  intro t' w hp hs'
  obtain ⟨d, w', rfl, hi⟩ := exists_cons_of_spells hs'
  obtain ⟨rfl, hp'⟩ := List.cons_prefix_cons.mp hp
  exact Nat.succ_le_succ (h t' w' hi.symm hp' hs')

theorem longest_self {text : List Char} {t : Tag} (h : t.Spells text) : Longest text t text :=
  ⟨List.prefix_rfl, h, fun _ _ hp _ => hp.length_le⟩

theorem longest_whitespace {c : Char} (h : isSpacing c = true) (cs : List Char) :
    Longest (c :: cs) .whitespace (c :: cs.takeWhile isSpacing) := by
  have hstart : cs.takeWhile isSpacing <+: cs := List.takeWhile_prefix isSpacing
  refine longest_of_initial hstart ⟨List.cons_ne_nil _ _, ?_⟩ ?_
  · exact List.forall_mem_cons.mpr ⟨h, fun d hd => List.mem_takeWhile_imp hd⟩
  · intro t w hi hp hs
    rw [initial_of_blank h] at hi
    obtain rfl : t = .whitespace := eq_of_isSole rfl hi
    exact length_le_takeWhile hp (List.forall_mem_cons.mp hs.2).2

theorem longest_newline (cs : List Char) : Longest ('\n' :: cs) .newline ['\n'] := by
  refine longest_of_initial List.nil_prefix rfl ?_
  intro t w hi hp hs
  obtain rfl : t = .newline := eq_of_isSole rfl hi
  exact Nat.le_of_eq (congrArg List.length (List.cons.inj (show '\n' :: w = ['\n'] from hs)).2)

theorem longest_ident {c : Char} (h : isLetter c = true) (cs : List Char) :
    Longest (c :: cs) .ident (c :: cs.takeWhile isWord) := by
  have hstart : cs.takeWhile isWord <+: cs := List.takeWhile_prefix isWord
  have hword : ∀ d ∈ cs.takeWhile isWord, isWord d = true := fun d hd => List.mem_takeWhile_imp hd
  refine longest_of_initial hstart ⟨c, _, rfl, h, hword⟩ ?_
  intro t w hi hp hs
  rw [initial_of_letter h] at hi
  obtain rfl : t = .ident := eq_of_isSole rfl hi
  obtain ⟨d, ds, he, -, hall⟩ := hs
  rw [(List.cons.inj he).2] at hp ⊢
  exact length_le_takeWhile hp hall

theorem digits_of_spells {c : Char} (h : c.isDigit = true) {t : Tag} {w : List Char}
    (hi : t.initial = initial c) (hs : t.Spells (c :: w)) :
    ∃ ds es, w = ds ++ es ∧ (∀ d ∈ ds, d.isDigit = true) ∧
      (es = [] ∨ ∃ e r, es = '.' :: e :: r ∧ e.isDigit = true ∧ ∀ d ∈ r, d.isDigit = true) := by
  rw [initial_of_digit h] at hi
  obtain rfl : t = .number := eq_of_isSole rfl hi
  obtain ⟨ds, ⟨hne, hds⟩, he⟩ := hs
  obtain ⟨d, ds, rfl⟩ := List.exists_cons_of_ne_nil hne
  rcases he with he | ⟨es, ⟨hne', hes⟩, he⟩
  · exact ⟨ds, [], by rw [(List.cons.inj he).2, List.append_nil],
      (List.forall_mem_cons.mp hds).2, Or.inl rfl⟩
  · obtain ⟨e, es, rfl⟩ := List.exists_cons_of_ne_nil hne'
    exact ⟨ds, _, (List.cons.inj he).2, (List.forall_mem_cons.mp hds).2,
      Or.inr ⟨e, es, rfl, List.forall_mem_cons.mp hes⟩⟩

theorem longest_whole {c : Char} (h : c.isDigit = true) {cs : List Char}
    (hr : ∀ d r, cs.dropWhile Char.isDigit = '.' :: d :: r → d.isDigit = false) :
    Longest (c :: cs) .number (c :: cs.takeWhile Char.isDigit) := by
  have hds : IsDigits (c :: cs.takeWhile Char.isDigit) :=
    ⟨List.cons_ne_nil _ _, List.forall_mem_cons.mpr ⟨h, fun d hd => List.mem_takeWhile_imp hd⟩⟩
  have hstart : cs.takeWhile Char.isDigit <+: cs := List.takeWhile_prefix Char.isDigit
  refine longest_of_initial hstart ⟨_, hds, Or.inl rfl⟩ ?_
  intro t w hi hp hs
  obtain ⟨ds, es, he, hall, hes⟩ := digits_of_spells h hi hs
  rcases hes with rfl | ⟨e, es, rfl, hee, -⟩
  · rw [List.append_nil] at he
    exact length_le_takeWhile hp (he ▸ hall)
  · -- A fraction would have to be where the run of digits ends.
    rw [he] at hp
    obtain ⟨-, r, hd⟩ := takeWhile_of_starts hp hall (by decide)
    exact absurd hee (by rw [hr e _ hd.symm]; exact Bool.false_ne_true)

theorem longest_fraction {c : Char} (h : c.isDigit = true) {cs r : List Char} {e : Char}
    (hr : cs.dropWhile Char.isDigit = '.' :: e :: r) (hde : e.isDigit = true) :
    Longest (c :: cs) .number
      (c :: (cs.takeWhile Char.isDigit ++ '.' :: e :: r.takeWhile Char.isDigit)) := by
  have hds : IsDigits (c :: cs.takeWhile Char.isDigit) :=
    ⟨List.cons_ne_nil _ _, List.forall_mem_cons.mpr ⟨h, fun d hd => List.mem_takeWhile_imp hd⟩⟩
  have hes : IsDigits (e :: r.takeWhile Char.isDigit) :=
    ⟨List.cons_ne_nil _ _, List.forall_mem_cons.mpr ⟨hde, fun d hd => List.mem_takeWhile_imp hd⟩⟩
  have hcs : cs = cs.takeWhile Char.isDigit ++ '.' :: e :: r := by
    rw [← hr, List.takeWhile_append_dropWhile]
  refine longest_of_initial ?_ ⟨_, hds, Or.inr ⟨_, hes, rfl⟩⟩ ?_
  · conv_rhs => rw [hcs]
    rw [List.prefix_append_right_inj, List.prefix_cons_inj, List.prefix_cons_inj]
    exact List.takeWhile_prefix _
  · intro t w hi hp hs
    obtain ⟨ds, es, rfl, hall, he⟩ := digits_of_spells h hi hs
    rcases he with rfl | ⟨e', r', rfl, -, hr'⟩
    · rw [List.append_nil] at hp ⊢
      rw [List.length_append]
      exact Nat.le_add_right_of_le (length_le_takeWhile hp hall)
    · obtain ⟨htw, hd⟩ := takeWhile_of_starts hp hall (by decide)
      rw [hr, List.prefix_cons_inj, List.cons_prefix_cons] at hd
      have hl := length_le_takeWhile hd.2 hr'
      simp only [htw, List.length_append, List.length_cons]
      omega

theorem quote_forms {t : Tag} {w : List Char} (hi : t.initial = .quote) (hs : t.Spells ('"' :: w)) :
    '"' ∉ w ∨ ∃ body, w = body ++ ['"'] ∧ '"' ∉ body := by
  cases t with
  | operator o => cases o <;> cases hi
  | string =>
    obtain ⟨body, hb, he⟩ := hs
    exact Or.inr ⟨body, (List.cons.inj he).2, hb⟩
  | unterminatedString =>
    obtain ⟨body, hb, he⟩ := hs
    exact Or.inl (by rwa [(List.cons.inj he).2])
  | _ => cases hi

theorem longest_string {body : List Char} (hb : '"' ∉ body) (rest : List Char) :
    Longest ('"' :: (body ++ '"' :: rest)) .string ('"' :: (body ++ ['"'])) := by
  have hword : body ++ ['"'] <+: body ++ '"' :: rest := by
    rw [List.prefix_append_right_inj, List.prefix_cons_inj]
    exact List.nil_prefix
  have hrun := (takeWhile_of_starts (p := (· != '"')) hword (bne_of_not_mem hb) (by decide)).1
  refine longest_of_initial hword ⟨body, hb, rfl⟩ ?_
  intro t w hi hp hs
  rcases quote_forms hi hs with hw | ⟨body', rfl, hb'⟩
  · have hl := length_le_takeWhile (p := (· != '"')) hp (bne_of_not_mem hw)
    rw [hrun] at hl
    rw [List.length_append]
    exact Nat.le_add_right_of_le hl
  · have hrun' := (takeWhile_of_starts (p := (· != '"')) hp (bne_of_not_mem hb') (by decide)).1
    rw [← hrun, hrun']

theorem slash_forms {t : Tag} {w : List Char} (hi : t.initial = .slash) (hs : t.Spells ('/' :: w)) :
    w = [] ∨ (∃ body, w = '/' :: body ∧ '\n' ∉ body) ∨
      (∃ body, w = '*' :: (body ++ closing) ∧
        ∀ us vs, body ++ closing = us ++ closing ++ vs → vs = []) ∨
      ∃ body, w = '*' :: body ∧ ¬ closing <:+: body := by
  cases t with
  | operator o =>
    cases o with
    | slash => exact Or.inl (List.cons.inj (show '/' :: w = ['/'] from hs)).2
    | _ => cases hi
  | lineComment =>
    obtain ⟨body, hb, he⟩ := hs
    exact Or.inr (Or.inl ⟨body, (List.cons.inj he).2, hb⟩)
  | blockComment =>
    obtain ⟨body, he, hb⟩ := hs
    exact Or.inr (Or.inr (Or.inl ⟨body, (List.cons.inj he).2, hb⟩))
  | unterminatedBlockComment | malformedBlockComment =>
    obtain ⟨body, he, hb, -⟩ := hs
    exact Or.inr (Or.inr (Or.inr ⟨body, (List.cons.inj he).2, hb⟩))
  | _ => cases hi

theorem longest_slash {cs : List Char} (h1 : cs.head? ≠ some '/') (h2 : cs.head? ≠ some '*') :
    Longest ('/' :: cs) (.operator .slash) ['/'] := by
  refine longest_of_initial List.nil_prefix rfl ?_
  intro t w hi hp hs
  have hne (c : Char) (body : List Char) (he : w = c :: body) : cs.head? = some c := by
    obtain ⟨r, rfl⟩ := hp
    rw [he]
    rfl
  rcases slash_forms hi hs with rfl | ⟨body, he, -⟩ | ⟨body, he, -⟩ | ⟨body, he, -⟩
  · exact Nat.le_refl _
  · exact absurd (hne _ _ he) h1
  · exact absurd (hne _ _ he) h2
  · exact absurd (hne _ _ he) h2

theorem longest_lineComment (cs : List Char) :
    Longest ('/' :: '/' :: cs) .lineComment ('/' :: '/' :: cs.takeWhile (· != '\n')) := by
  refine longest_of_initial ?_ ⟨_, not_mem_takeWhile_bne _ _, rfl⟩ ?_
  · rw [List.prefix_cons_inj]
    exact List.takeWhile_prefix _
  · intro t w hi hp hs
    rcases slash_forms hi hs with rfl | ⟨body, rfl, hb⟩ | ⟨body, rfl, -⟩ | ⟨body, rfl, -⟩
    · exact Nat.zero_le _
    · rw [List.prefix_cons_inj] at hp
      exact Nat.succ_le_succ (length_le_takeWhile hp (bne_of_not_mem hb))
    · exact absurd (List.cons_prefix_cons.mp hp).1 (by decide)
    · exact absurd (List.cons_prefix_cons.mp hp).1 (by decide)

theorem longest_blockComment {body : List Char}
    (hb : ∀ us vs, body ++ closing = us ++ closing ++ vs → vs = []) (rest : List Char) :
    Longest ('/' :: '*' :: (body ++ closing ++ rest)) .blockComment
      ('/' :: '*' :: (body ++ closing)) := by
  refine longest_of_initial ?_ ⟨body, rfl, hb⟩ ?_
  · rw [List.prefix_cons_inj]
    exact List.prefix_append _ _
  · intro t w hi hp hs
    rcases slash_forms hi hs with rfl | ⟨body', rfl, -⟩ | ⟨body', rfl, hb'⟩ | ⟨body', rfl, hb'⟩
    · exact Nat.zero_le _
    · exact absurd (List.cons_prefix_cons.mp hp).1 (by decide)
    · rw [List.prefix_cons_inj] at hp
      by_contra hlt
      -- The shorter of two closed bodies would hold the closing mark of the longer one.
      have hle : (body ++ closing).length ≤ (body' ++ closing).length := by
        simp only [List.length_cons] at hlt
        omega
      obtain ⟨vs, hvs⟩ :=
        List.prefix_of_prefix_length_le (List.prefix_append _ rest) hp hle
      have hnil := hb' body vs hvs.symm
      rw [hnil, List.append_nil] at hvs
      exact hlt (by rw [hvs])
    · rw [List.prefix_cons_inj] at hp
      by_contra hlt
      have hle : (body ++ closing).length ≤ body'.length := by
        simp only [List.length_cons] at hlt
        omega
      have hin := List.prefix_of_prefix_length_le (List.prefix_append _ rest) hp hle
      exact hb' ((List.suffix_append body closing).isInfix.trans hin.isInfix)

theorem longest_invalidChar {c : Char} (h : initial c = .stray) (cs : List Char) :
    Longest (c :: cs) .invalidChar [c] := by
  refine longest_of_initial List.nil_prefix ⟨c, rfl, initial_eq_stray_iff.mp h⟩ ?_
  intro t w hi hp hs
  rw [h] at hi
  cases t with
  | operator o => cases o <;> cases hi
  | invalidChar =>
    obtain ⟨d, he, -⟩ := hs
    exact Nat.le_of_eq (congrArg List.length (List.cons.inj he).2)
  | eof => exact hs.elim
  | _ => cases hi

theorem longest_operator {o : Operator} {c : Char} {cs word : List Char}
    (hc : initial c = .mark c) (ho : o.spelling.toList = c :: word) (hw : word <+: cs)
    (h : ∀ (o' : Operator) w, o'.spelling.toList = c :: w → w <+: cs → w.length ≤ word.length) :
    Longest (c :: cs) (.operator o) (c :: word) := by
  refine longest_of_initial hw ho.symm ?_
  intro t w hi hp hs
  rw [hc] at hi
  cases t with
  | operator o' => exact h o' w (show c :: w = o'.spelling.toList from hs).symm hp
  | _ => cases hi

end LoxFront.Lexical
