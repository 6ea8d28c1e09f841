import LoxFront.Command.Options
import Mathlib.Data.List.Basic
import Mathlib.Tactic.Common

namespace LoxFront

def ColorMode.name : ColorMode → String
  | auto => "auto"
  | always => "always"
  | never => "never"

/-- A limit as it may be written: digits, any number of zeros in front among them, after one plus sign
at most. -/
inductive LimitText : String → Nat → Prop where
  | mk {text : String} {digits : List Char} : digits ≠ [] → (∀ d ∈ digits, d.isDigit = true) →
    Nat.ofDigitChars 10 digits 0 ≤ greatestLimit →
    text.toList = digits ∨ text.toList = '+' :: digits →
      LimitText text (Nat.ofDigitChars 10 digits 0)

inductive Setting where
  | color (mode : ColorMode)
  | errorLimit (limit : Nat)
  | repeats

/-- The text of an option, and what it sets. -/
inductive Sets : String → Setting → Prop where
  | color (mode : ColorMode) : Sets ("--color=" ++ mode.name) (.color mode)
  | errorLimit {value : String} {limit : Nat} : LimitText value limit →
    Sets ("--error-limit=" ++ value) (.errorLimit limit)
  | repeats : Sets "--no-dedup" .repeats

/-- An argument that starts like an option and sets nothing. -/
def Faulty (arg : String) : Prop :=
  isOption arg = true ∧ ∀ s, ¬ Sets arg s

/-- The error that names an argument: by its value if it starts like an option that has one. -/
inductive Names : OptionError → String → Prop where
  | color (value : String) : Names (.color value) ("--color=" ++ value)
  | errorLimit (value : String) : Names (.errorLimit value) ("--error-limit=" ++ value)
  | unknown {arg : String} : (∀ value, arg ≠ "--color=" ++ value) →
    (∀ value, arg ≠ "--error-limit=" ++ value) → Names (.unknown arg) arg

def NamesFirst (args : List String) (e : OptionError) : Prop :=
  ∃ before arg after, args = before ++ arg :: after ∧ (∀ a ∈ before, ¬ Faulty a) ∧ Faulty arg ∧
    Names e arg

/-- The value that the last option of a kind sets, or a given one if there is no such option. -/
def LastSet {α : Type} (args : List String) (kind : α → Setting) (otherwise value : α) : Prop :=
  (∃ before arg after, args = before ++ arg :: after ∧ Sets arg (kind value) ∧
    ∀ a ∈ after, ∀ v, ¬ Sets a (kind v)) ∨
  (value = otherwise ∧ ∀ a ∈ args, ∀ v, ¬ Sets a (kind v))

/-! ## The parts of an option -/

theorem isOption_iff {arg : String} : isOption arg = true ↔ ∃ rest, arg.toList = '-' :: rest := by
  rw [isOption, beq_iff_eq]
  cases arg.toList with
  | nil => simp
  | cons c cs => simp

theorem valueAfter?_eq_some_iff {start arg value : String} :
    valueAfter? start arg = some value ↔ arg = start ++ value := by
  rw [valueAfter?, Option.map_eq_some_iff]
  constructor
  · rintro ⟨rest, hr, rfl⟩
    apply String.toList_inj.mp
    rw [String.toList_append, String.toList_ofList]
    exact (List.isPrefixOf?_eq_some_iff_append_eq.mp hr).symm
  · rintro rfl
    refine ⟨value.toList, ?_, String.ofList_toList⟩
    rw [List.isPrefixOf?_eq_some_iff_append_eq, String.toList_append]

theorem valueAfter?_eq_none_iff {start arg : String} :
    valueAfter? start arg = none ↔ ∀ value, arg ≠ start ++ value := by
  rw [Option.eq_none_iff_forall_ne_some]
  simp only [ne_eq, valueAfter?_eq_some_iff]

theorem color_ne_errorLimit (v w : String) : "--color=" ++ v ≠ "--error-limit=" ++ w := by
  intro h
  have hl := congrArg String.toList h
  rw [String.toList_append, String.toList_append] at hl
  exact absurd (List.cons.inj (List.cons.inj (List.cons.inj hl).2).2).1 (by decide)

theorem noDedup_ne (v : String) : "--no-dedup" ≠ "--color=" ++ v ∧
    "--no-dedup" ≠ "--error-limit=" ++ v := by
  refine ⟨?_, ?_⟩
  all_goals
    intro h
    have hl := congrArg String.toList h
    rw [String.toList_append] at hl
    exact absurd (List.cons.inj (List.cons.inj (List.cons.inj hl).2).2).1 (by decide)

theorem ColorMode.ofText?_eq_some_iff {text : String} {mode : ColorMode} :
    ColorMode.ofText? text = some mode ↔ text = mode.name := by
  unfold ColorMode.ofText?
  constructor
  · intro h
    split_ifs at h with h1 h2 h3
    all_goals
      obtain rfl := Option.some.inj h
      assumption
  · rintro rfl
    cases mode <;> decide

def unsigned : List Char → List Char
  | '+' :: r => r
  | r => r

theorem eq_unsigned (cs : List Char) : cs = unsigned cs ∨ cs = '+' :: unsigned cs := by
  unfold unsigned
  split
  · exact Or.inr rfl
  · exact Or.inl rfl

theorem unsigned_of_digits {digits : List Char} (h : ∀ d ∈ digits, d.isDigit = true) :
    unsigned digits = digits := by
  unfold unsigned
  split
  · exact absurd (h '+' List.mem_cons_self) (by decide)
  · rfl

theorem readLimit?_eq (text : String) :
    readLimit? text =
      if (unsigned text.toList).isEmpty || !(unsigned text.toList).all Char.isDigit then none
      else if Nat.ofDigitChars 10 (unsigned text.toList) 0 ≤ greatestLimit then
        some (Nat.ofDigitChars 10 (unsigned text.toList) 0)
      else none :=
  rfl

theorem readLimit?_eq_some_iff {text : String} {limit : Nat} :
    readLimit? text = some limit ↔ LimitText text limit := by
  rw [readLimit?_eq]
  constructor
  · -- What was read is the digits without the sign, and no second sign is taken off them.
    intro h
    split_ifs at h with hbad hle
    obtain rfl := Option.some.inj h
    rw [Bool.or_eq_true, not_or, List.isEmpty_iff, Bool.not_eq_true', Bool.not_eq_false,
      List.all_eq_true] at hbad
    exact .mk hbad.1 hbad.2 hle (eq_unsigned text.toList)
  · rintro ⟨hne, hall, hle, hform⟩
    rename_i digits
    have hdigits : unsigned text.toList = digits := by
      rcases hform with hform | hform
      · rw [hform, unsigned_of_digits hall]
      · rw [hform]
        rfl
    have hgood : ¬ (digits.isEmpty || !digits.all Char.isDigit) = true := by
      rw [Bool.or_eq_true, not_or, List.isEmpty_iff, Bool.not_eq_true', Bool.not_eq_false,
        List.all_eq_true]
      exact ⟨hne, hall⟩
    rw [hdigits, if_neg hgood, if_pos hle]

theorem Sets.isOption {arg : String} {s : Setting} (h : Sets arg s) : isOption arg = true := by
  rw [isOption_iff]
  cases h with
  | color mode => exact ⟨_, String.toList_append⟩
  | errorLimit hl => exact ⟨_, String.toList_append⟩
  | repeats => exact ⟨_, rfl⟩

/-! ## One option -/

namespace CheckOptions

def set (o : CheckOptions) : Setting → CheckOptions
  | .color color => { o with color }
  | .errorLimit errorLimit => { o with limits := { o.limits with errorLimit } }
  | .repeats => { o with limits := { o.limits with deduplicate := false } }

theorem apply_color (o : CheckOptions) (value : String) :
    o.apply ("--color=" ++ value) =
      match ColorMode.ofText? value with
      | some mode => .ok (o.set (.color mode))
      | none => .error (.color value) := by
  have hv : valueAfter? "--color=" ("--color=" ++ value) = some value :=
    valueAfter?_eq_some_iff.mpr rfl
  unfold apply
  rw [hv]
  rfl

theorem apply_errorLimit (o : CheckOptions) (value : String) :
    o.apply ("--error-limit=" ++ value) =
      match readLimit? value with
      | some limit => .ok (o.set (.errorLimit limit))
      | none => .error (.errorLimit value) := by
  have hc : valueAfter? "--color=" ("--error-limit=" ++ value) = none :=
    valueAfter?_eq_none_iff.mpr fun w => (color_ne_errorLimit w value).symm
  have hv : valueAfter? "--error-limit=" ("--error-limit=" ++ value) = some value :=
    valueAfter?_eq_some_iff.mpr rfl
  unfold apply
  rw [hc, hv]
  rfl

theorem apply_other (o : CheckOptions) {arg : String} (hc : ∀ value, arg ≠ "--color=" ++ value)
    (hl : ∀ value, arg ≠ "--error-limit=" ++ value) :
    o.apply arg = if arg = "--no-dedup" then .ok (o.set .repeats) else .error (.unknown arg) := by
  unfold apply
  rw [valueAfter?_eq_none_iff.mpr hc, valueAfter?_eq_none_iff.mpr hl]
  rfl

theorem apply_of_sets (o : CheckOptions) {arg : String} {s : Setting} (h : Sets arg s) :
    o.apply arg = .ok (o.set s) := by
  cases h with
  | color mode => rw [apply_color, ColorMode.ofText?_eq_some_iff.mpr rfl]
  | errorLimit hl => rw [apply_errorLimit, readLimit?_eq_some_iff.mpr hl]
  | repeats =>
    rw [apply_other o (fun v => (noDedup_ne v).1) fun v => (noDedup_ne v).2]
    exact if_pos rfl

theorem apply_of_names (o : CheckOptions) {arg : String} {e : OptionError}
    (h : ∀ s, ¬ Sets arg s) (hn : Names e arg) : o.apply arg = .error e := by
  cases hn with
  | color value =>
    rw [apply_color]
    cases hv : ColorMode.ofText? value with
    | some mode =>
      obtain rfl := ColorMode.ofText?_eq_some_iff.mp hv
      exact absurd (.color mode) (h _)
    | none => rfl
  | errorLimit value =>
    rw [apply_errorLimit]
    cases hv : readLimit? value with
    | some limit => exact absurd (.errorLimit (readLimit?_eq_some_iff.mp hv)) (h _)
    | none => rfl
  | unknown hc hl =>
    rw [apply_other o hc hl]
    apply if_neg
    rintro rfl
    exact h _ .repeats

theorem exists_names (arg : String) : ∃ e, Names e arg := by
  by_cases hc : ∃ value, arg = "--color=" ++ value
  · obtain ⟨value, rfl⟩ := hc
    exact ⟨_, .color value⟩
  · by_cases hl : ∃ value, arg = "--error-limit=" ++ value
    · obtain ⟨value, rfl⟩ := hl
      exact ⟨_, .errorLimit value⟩
    · exact ⟨_, .unknown (fun v hv => hc ⟨v, hv⟩) fun v hv => hl ⟨v, hv⟩⟩

/-! ## A command line -/

def applyAll (o : CheckOptions) (args : List String) : Except OptionError CheckOptions :=
  (args.filter LoxFront.isOption).foldlM apply o

theorem applyAll_of_sets (o : CheckOptions) {arg : String} {s : Setting} (h : Sets arg s)
    (args : List String) : o.applyAll (arg :: args) = (o.set s).applyAll args := by
  rw [applyAll, List.filter_cons_of_pos h.isOption, List.foldlM_cons, apply_of_sets o h]
  rfl

theorem applyAll_of_not_isOption (o : CheckOptions) {arg : String}
    (h : ¬ LoxFront.isOption arg = true) (args : List String) :
    o.applyAll (arg :: args) = o.applyAll args := by
  rw [applyAll, List.filter_cons_of_neg h, applyAll]

theorem applyAll_of_faulty (o : CheckOptions) {arg : String} {e : OptionError} (h : Faulty arg)
    (hn : Names e arg) (args : List String) : o.applyAll (arg :: args) = .error e := by
  rw [applyAll, List.filter_cons_of_pos h.1, List.foldlM_cons, apply_of_names o h.2 hn]
  rfl

theorem faulty_or (arg : String) :
    Faulty arg ∨ ¬ LoxFront.isOption arg = true ∨ ∃ s, Sets arg s := by
  by_cases ho : LoxFront.isOption arg = true
  · by_cases hs : ∃ s, Sets arg s
    · exact Or.inr (Or.inr hs)
    · exact Or.inl ⟨ho, not_exists.mp hs⟩
  · exact Or.inr (Or.inl ho)

theorem namesFirst_cons_of_faulty {arg : String} (h : Faulty arg) {args : List String}
    {e : OptionError} : NamesFirst (arg :: args) e ↔ Names e arg := by
  constructor
  · rintro ⟨before, b, after, he, hbefore, -, hn⟩
    cases before with
    | nil =>
      obtain ⟨rfl, -⟩ := List.cons.inj he
      exact hn
    | cons c before =>
      obtain ⟨rfl, -⟩ := List.cons.inj he
      exact absurd h (hbefore arg List.mem_cons_self)
  · intro hn
    exact ⟨[], arg, args, rfl, List.forall_mem_nil _, h, hn⟩

theorem namesFirst_cons_of_not_faulty {arg : String} (h : ¬ Faulty arg) {args : List String}
    {e : OptionError} : NamesFirst (arg :: args) e ↔ NamesFirst args e := by
  constructor
  · rintro ⟨before, b, after, he, hbefore, hf, hn⟩
    cases before with
    | nil =>
      obtain ⟨rfl, -⟩ := List.cons.inj he
      exact absurd hf h
    | cons c before =>
      obtain ⟨-, he⟩ := List.cons.inj he
      exact ⟨before, b, after, he, (List.forall_mem_cons.mp hbefore).2, hf, hn⟩
  · rintro ⟨before, b, after, rfl, hbefore, hf, hn⟩
    exact ⟨arg :: before, b, after, rfl, List.forall_mem_cons.mpr ⟨h, hbefore⟩, hf, hn⟩

/-- How a command line fails does not depend on what was set before it. -/
theorem applyAll_eq_error_iff (o : CheckOptions) (args : List String) (e : OptionError) :
    o.applyAll args = .error e ↔ NamesFirst args e := by
  induction args generalizing o with
  | nil =>
    have hnot : ¬ NamesFirst [] e := by
      rintro ⟨before, b, after, he, -⟩
      exact List.append_ne_nil_of_right_ne_nil before (List.cons_ne_nil b after) he.symm
    exact iff_of_false (fun h => by cases h) hnot
  | cons arg args ih =>
    rcases faulty_or arg with hf | ho | ⟨s, hs⟩
    · obtain ⟨e', hn⟩ := exists_names arg
      rw [namesFirst_cons_of_faulty hf, applyAll_of_faulty o hf hn]
      constructor
      · intro h
        obtain rfl := Except.error.inj h
        exact hn
      · intro hn'
        exact (apply_of_names o hf.2 hn).symm.trans (apply_of_names o hf.2 hn')
    · rw [namesFirst_cons_of_not_faulty fun hf => ho hf.1, applyAll_of_not_isOption o ho]
      exact ih o
    · rw [namesFirst_cons_of_not_faulty fun hf => hf.2 s hs, applyAll_of_sets o hs]
      exact ih (o.set s)

theorem exists_namesFirst_iff {args : List String} :
    (∃ e, NamesFirst args e) ↔ ∃ arg ∈ args, Faulty arg := by
  constructor
  · rintro ⟨e, before, arg, after, rfl, -, hf, -⟩
    exact ⟨arg, List.mem_append_right before List.mem_cons_self, hf⟩
  · rintro ⟨arg, hmem, hf⟩
    induction args with
    | nil => exact absurd hmem List.not_mem_nil
    | cons b args ih =>
      by_cases hb : Faulty b
      · obtain ⟨e, hn⟩ := exists_names b
        exact ⟨e, (namesFirst_cons_of_faulty hb).mpr hn⟩
      · have hmem : arg ∈ args := by
          rcases List.mem_cons.mp hmem with rfl | hmem
          · exact absurd hf hb
          · exact hmem
        obtain ⟨e, he⟩ := ih hmem
        exact ⟨e, (namesFirst_cons_of_not_faulty hb).mpr he⟩

section Last
variable {α : Type} {kind : α → Setting}

theorem lastSet_cons_of_sets {arg : String} {v w x : α} (h : Sets arg (kind v))
    {args : List String} (hl : LastSet args kind v x) : LastSet (arg :: args) kind w x := by
  rcases hl with ⟨before, b, after, rfl, hb, hafter⟩ | ⟨rfl, hnone⟩
  · exact Or.inl ⟨arg :: before, b, after, rfl, hb, hafter⟩
  · exact Or.inl ⟨[], arg, args, rfl, h, hnone⟩

theorem lastSet_cons_of_not_sets {arg : String} {w x : α} (h : ∀ v, ¬ Sets arg (kind v))
    {args : List String} (hl : LastSet args kind w x) : LastSet (arg :: args) kind w x := by
  rcases hl with ⟨before, b, after, rfl, hb, hafter⟩ | ⟨rfl, hnone⟩
  · exact Or.inl ⟨arg :: before, b, after, rfl, hb, hafter⟩
  · exact Or.inr ⟨rfl, List.forall_mem_cons.mpr ⟨h, hnone⟩⟩

/-- For a thing that only the options of one kind set, the last of them counts. -/
theorem lastSet_of_applyAll (get : CheckOptions → α)
    (hsame : ∀ (o : CheckOptions) v, get (o.set (kind v)) = v)
    (hother : ∀ (o : CheckOptions) s, (∀ v, s ≠ kind v) → get (o.set s) = get o)
    {o o' : CheckOptions} {args : List String} (h : o.applyAll args = .ok o') :
    LastSet args kind (get o) (get o') := by
  -- What the options up to now have set is what counts if none of the kind follows.
  induction args generalizing o with
  | nil =>
    obtain rfl := Except.ok.inj h
    exact Or.inr ⟨rfl, List.forall_mem_nil _⟩
  | cons arg args ih =>
    rcases faulty_or arg with hf | ho | ⟨s, hs⟩
    · obtain ⟨e, hn⟩ := exists_names arg
      rw [applyAll_of_faulty o hf hn] at h
      cases h
    · rw [applyAll_of_not_isOption o ho] at h
      exact lastSet_cons_of_not_sets (fun v hv => ho hv.isOption) (ih h)
    · by_cases hk : ∃ v, Sets arg (kind v)
      · obtain ⟨v, hv⟩ := hk
        rw [applyAll_of_sets o hv] at h
        have hlast := ih h
        rw [hsame] at hlast
        exact lastSet_cons_of_sets hv hlast
      · have hne (v : α) : s ≠ kind v := by
          rintro rfl
          exact hk ⟨v, hs⟩
        rw [applyAll_of_sets o hs] at h
        have hlast := ih h
        rw [hother o s hne] at hlast
        exact lastSet_cons_of_not_sets (not_exists.mp hk) hlast

end Last

theorem deduplicate_of_applyAll {o o' : CheckOptions} {args : List String}
    (h : o.applyAll args = .ok o') :
    o'.limits.deduplicate = false ↔ o.limits.deduplicate = false ∨ "--no-dedup" ∈ args := by
  induction args generalizing o with
  | nil =>
    obtain rfl := Except.ok.inj h
    simp
  | cons arg args ih =>
    by_cases hr : arg = "--no-dedup"
    · subst hr
      rw [applyAll_of_sets o .repeats] at h
      simp [ih h, set]
    · rw [List.mem_cons, or_iff_right (Ne.symm hr)]
      rcases faulty_or arg with hf | ho | ⟨s, hs⟩
      · obtain ⟨e, hn⟩ := exists_names arg
        rw [applyAll_of_faulty o hf hn] at h
        cases h
      · rw [applyAll_of_not_isOption o ho] at h
        exact ih h
      · rw [applyAll_of_sets o hs] at h
        rw [ih h]
        cases hs with
        | color mode => rfl
        | errorLimit hl => rfl
        | repeats => exact absurd rfl hr

structure Follows (args : List String) (result : Except OptionError CheckOptions) : Prop where
  fails_iff : (∃ e, result = .error e) ↔ ∃ arg ∈ args, Faulty arg
  error_iff : ∀ e, result = .error e ↔ NamesFirst args e
  color : ∀ o, result = .ok o → LastSet args .color .auto o.color
  errorLimit : ∀ o, result = .ok o → LastSet args .errorLimit 10 o.limits.errorLimit
  deduplicate : ∀ o, result = .ok o → (o.limits.deduplicate = false ↔ "--no-dedup" ∈ args)

/-- Reading a command line fails exactly if one of its arguments is faulty, with an error that names
the first such argument. Otherwise the last option of each kind decides. -/
theorem ofArgs_follows (args : List String) :
    Follows args (ofArgs args) ∧
    ofArgs args = ofArgs (args.filter LoxFront.isOption) ∧
    positional? args = (args.filter fun arg => !LoxFront.isOption arg).head? := by
  have hall : ofArgs args = standard.applyAll args := rfl
  refine ⟨?_, ?_, ?_⟩
  · rw [hall]
    constructor
    · rw [← exists_namesFirst_iff]
      exact exists_congr (applyAll_eq_error_iff standard args)
    · exact applyAll_eq_error_iff standard args
    · intro o h
      apply lastSet_of_applyAll CheckOptions.color _ _ h
      · intro o v
        rfl
      · intro o s hs
        cases s with
        | color mode => exact absurd rfl (hs mode)
        | errorLimit limit => rfl
        | repeats => rfl
    · intro o h
      apply lastSet_of_applyAll (fun o => o.limits.errorLimit) _ _ h
      · intro o v
        rfl
      · intro o s hs
        cases s with
        | color mode => rfl
        | errorLimit limit => exact absurd rfl (hs limit)
        | repeats => rfl
    · intro o h
      rw [deduplicate_of_applyAll h]
      exact or_iff_right (by decide)
  · rw [ofArgs, ofArgs, List.filter_filter]
    simp only [Bool.and_self]
  · rw [List.head?_filter]
    rfl

/-- The last color counts, leading zeros and a plus sign do not, and a file may stand anywhere. -/
example : ofArgs ["--color=never", "a.lox", "--error-limit=+007", "--color=always"] =
    .ok ⟨.always, ⟨7, true⟩⟩ := by
  rfl

end CheckOptions

end LoxFront
