import LoxFront.Proofs.Contributions
import LoxFront.Proofs.Numerals
import LoxFront.Proofs.Runs
import LoxFront.Proofs.Sinks
import LoxFront.Proofs.WholeCharacters
import LoxFront.Token.Dump

/-! A dump escapes nothing, so its lines are not its tokens. It can be read from the left: a kind
ends at the first blank, the kind says which mark ends the lexeme, and the lexeme how long its value
is. -/
namespace LoxFront
open Text Lexical

/-- The value of a token that is no string, which its kind and its lexeme fix. -/
def Kind.valueOf (kind : Kind) (lexeme : String) : Option Literal :=
  match kind with
  | .number => some (.number ((Binary64.ofText? lexeme).getD Binary64.nan))
  | _ => none

/-- The tokens that a reading can hold: the lexeme of a string has no quote but the two around its
value, and every other lexeme has no apostrophe. -/
inductive Token.Delimited : Token → Prop
  | string {body : List Char} {line : UInt32} : '"' ∉ body →
      Delimited ⟨.string, String.ofList ('"' :: (body ++ ['"'])), some (.text (String.ofList body)),
        line⟩
  | plain {kind : Kind} {lexeme : String} {line : UInt32} : kind ≠ .string →
      '\'' ∉ lexeme.toList → Delimited ⟨kind, lexeme, kind.valueOf lexeme, line⟩

theorem valueOf_wordKind (text : String) :
    Lexeme.wordKind text ≠ .string ∧ (Lexeme.wordKind text).valueOf text = none := by
  unfold Lexeme.wordKind
  cases Keyword.ofText? text with
  | some k => exact ⟨Kind.noConfusion, rfl⟩
  | none => exact ⟨Kind.noConfusion, rfl⟩

theorem apostrophe_not_mem_digits {ds : List Char} (h : IsDigits ds) : '\'' ∉ ds := by
  intro hmem
  have hd := h.2 '\'' hmem
  exact absurd hd (by decide)

theorem apostrophe_not_mem_of_spells {t : Tag} {w : List Char} (h : t.Spells w)
    (ht : t = .ident ∨ t = .number ∨ ∃ o, t = .operator o) : '\'' ∉ w := by
  obtain rfl | rfl | ⟨o, rfl⟩ := ht
  · obtain ⟨c, cs, rfl, hc, hcs⟩ := h
    intro hmem
    obtain rfl | hmem := List.mem_cons.mp hmem
    · exact absurd hc (by decide)
    · exact absurd (hcs '\'' hmem) (by decide)
  · obtain ⟨ds, hds, rfl | ⟨es, hes, rfl⟩⟩ := h
    · exact apostrophe_not_mem_digits hds
    · intro hmem
      obtain hmem | hmem := List.mem_append.mp hmem
      · exact apostrophe_not_mem_digits hds hmem
      · obtain he | hmem := List.mem_cons.mp hmem
        · exact absurd he (by decide)
        · exact apostrophe_not_mem_digits hes hmem
  · have hw : w = o.spelling.toList := h
    rw [hw]
    cases o <;> decide

theorem Cursor.Meets.delimited {source before piece after : String} {c : Cursor} {t : Token}
    (hm : Meets source c before piece after) (hy : c.next.1.yield.token? = some t) :
    t.Delimited := by
  have htext := hm.text_eq
  have hs := hm.spells
  unfold Lexeme.yield at hy
  cases ht : c.next.1.tag with
  | ident =>
    rw [ht] at hs hy
    obtain rfl := Option.some.inj hy
    obtain ⟨hk, hv⟩ := valueOf_wordKind c.next.1.text
    rw [← hv]
    apply Token.Delimited.plain
    · exact hk
    · rw [htext]
      exact apostrophe_not_mem_of_spells (hs (by decide)) (.inl rfl)
  | number =>
    rw [ht] at hs hy
    obtain rfl := Option.some.inj hy
    apply Token.Delimited.plain
    · exact Kind.noConfusion
    · rw [htext]
      exact apostrophe_not_mem_of_spells (hs (by decide)) (.inr (.inl rfl))
  | operator o =>
    rw [ht] at hs hy
    obtain rfl := Option.some.inj hy
    apply Token.Delimited.plain
    · exact Kind.noConfusion
    · rw [htext]
      exact apostrophe_not_mem_of_spells (hs Tag.noConfusion) (.inr (.inr ⟨o, rfl⟩))
  | eof =>
    rw [ht] at hy
    obtain rfl := Option.some.inj hy
    apply Token.Delimited.plain
    · exact Kind.noConfusion
    · exact List.not_mem_nil
  | string =>
    obtain ⟨body, hbody, hlexeme, -, hquoted⟩ := hm.exists_body ht
    rw [ht] at hy
    obtain rfl := Option.some.inj hy
    rw [hlexeme, hquoted]
    exact .string hbody
  | _ =>
    rw [ht] at hy
    cases hy

theorem delimited_of_mem_tokens {source : String} {t : Token} (h : t ∈ (lex source).tokens) :
    t.Delimited := by
  rw [tokens_eq] at h
  obtain ⟨c, hc, hy⟩ := List.mem_filterMap.mp h
  obtain ⟨before, piece, after, hm⟩ := Cursor.exists_meets_of_mem hc
  exact hm.delimited hy

def shownValue : Option Literal → List Char
  | some literal => ' ' :: literal.render.toList
  | none => []

theorem toList_dumpLine_append (t : Token) (rest : List Char) :
    t.dumpLine.toList ++ '\n' :: rest =
      t.kind.name.toList ++ ' ' :: '\'' :: (t.lexeme.toList ++ '\'' :: (shownValue t.literal ++
        ' ' :: '@' :: ' ' :: (Nat.toDigits 10 t.line.toNat ++ '\n' :: rest))) := by
  have hline := toList_toString t.line.toNat
  unfold Token.dumpLine
  cases t.literal with
  | some literal =>
    simp only [String.toList_append, hline, List.append_assoc]
    rfl
  | none =>
    simp only [String.toList_append, hline, List.append_assoc]
    rfl

theorem Kind.find?_name (k : Kind) : Kind.all.find? (·.name == k.name) = some k := by
  cases k with
  | operator o => cases o <;> decide
  | keyword k => cases k <;> decide
  | string | number | identifier | eof => decide

theorem Kind.name_injective : Function.Injective Kind.name := by
  intro k l h
  apply Option.some.inj
  rw [← find?_name k, h, find?_name l]

theorem Kind.blank_not_mem_name (k : Kind) : ' ' ∉ k.name.toList := by
  cases k with
  | operator o => cases o <;> decide
  | keyword k => cases k <;> decide
  | string | number | identifier | eof => decide

theorem name_append_inj {k l : Kind} {rest rest' : List Char}
    (h : k.name.toList ++ ' ' :: rest = l.name.toList ++ ' ' :: rest') : k = l ∧ rest = rest' := by
  obtain ⟨hname, hrest⟩ := Runs.split_unique h k.blank_not_mem_name l.blank_not_mem_name
  exact ⟨Kind.name_injective (String.toList_injective hname), hrest⟩

theorem line_append_inj {value rest rest' : List Char} {m n : UInt32}
    (h : value ++ ' ' :: '@' :: ' ' :: (Nat.toDigits 10 m.toNat ++ '\n' :: rest) =
      value ++ ' ' :: '@' :: ' ' :: (Nat.toDigits 10 n.toNat ++ '\n' :: rest')) :
    m = n ∧ rest = rest' := by
  have hdigits (k : Nat) : ∀ c ∈ Nat.toDigits 10 k, c.isDigit = true := by
    intro c hc
    exact Nat.isDigit_of_mem_toDigits (by omega) (by omega) hc
  have hmark : ' ' :: '@' :: ' ' :: (Nat.toDigits 10 m.toNat ++ '\n' :: rest) =
      ' ' :: '@' :: ' ' :: (Nat.toDigits 10 n.toNat ++ '\n' :: rest') :=
    List.append_cancel_left h
  simp only [List.cons.injEq, true_and] at hmark
  obtain ⟨hline, -, hrest⟩ :=
    Runs.append_cons_inj hmark (hdigits m.toNat) (hdigits n.toNat) (by decide) (by decide)
  exact ⟨UInt32.toNat_inj.mp (toDigits_injective hline), hrest⟩

/-- A line has one reading, whatever follows it: its kind ends at the first blank, its lexeme at a quote
or at an apostrophe, whichever the kind calls for, and the value is the one that these two fix. -/
theorem Token.Delimited.append_inj {t u : Token} (ht : t.Delimited) (hu : u.Delimited)
    {rest rest' : List Char}
    (h : t.dumpLine.toList ++ '\n' :: rest = u.dumpLine.toList ++ '\n' :: rest') :
    t = u ∧ rest = rest' := by
  rw [toList_dumpLine_append, toList_dumpLine_append] at h
  obtain ⟨hkind, h⟩ := name_append_inj h
  have h := (List.cons.inj h).2
  cases ht with
  | @string body line hbody =>
    cases hu with
    | @string body' line' hbody' =>
      simp only [String.toList_ofList, List.cons_append, List.append_assoc] at h
      have h := (List.cons.inj h).2
      obtain ⟨rfl, h⟩ := Runs.split_unique h hbody hbody'
      simp only [List.cons.injEq, true_and, List.nil_append] at h
      obtain ⟨rfl, hrest⟩ := line_append_inj h
      exact ⟨rfl, hrest⟩
    | plain hk _ => exact absurd hkind.symm hk
  | @plain kind lexeme line hk hlexeme =>
    cases hu with
    | string _ => exact absurd hkind hk
    | @plain kind' lexeme' line' hk' hlexeme' =>
      obtain rfl : kind = kind' := hkind
      obtain ⟨htext, h⟩ := Runs.split_unique h hlexeme hlexeme'
      obtain rfl := String.toList_injective htext
      -- Nothing need be known of how a number is written: both lines write the same one.
      obtain ⟨rfl, hrest⟩ := line_append_inj h
      exact ⟨rfl, hrest⟩

theorem dumpLines_inj {ts us : List Token} (ht : ∀ t ∈ ts, t.Delimited)
    (hu : ∀ u ∈ us, u.Delimited)
    (h : String.join (Token.dumpLines ts) = String.join (Token.dumpLines us)) : ts = us := by
  have hcons (t : Token) (ts : List Token) :
      (String.join (Token.dumpLines (t :: ts))).toList =
        t.dumpLine.toList ++ '\n' :: (String.join (Token.dumpLines ts)).toList := by
    rw [Token.dumpLines, List.map_cons, String.join_cons, String.toList_append,
      String.toList_append, List.append_assoc]
    rfl
  have hempty : (String.join (Token.dumpLines [])).toList = [] := by
    rfl
  replace h := congrArg String.toList h
  induction ts generalizing us with
  | nil =>
    cases us with
    | nil => rfl
    | cons u us =>
      rw [hempty, hcons] at h
      exact absurd h.symm (List.append_ne_nil_of_right_ne_nil _ (List.cons_ne_nil _ _))
  | cons t ts ih =>
    cases us with
    | nil =>
      rw [hempty, hcons] at h
      exact absurd h (List.append_ne_nil_of_right_ne_nil _ (List.cons_ne_nil _ _))
    | cons u us =>
      rw [hcons, hcons] at h
      obtain ⟨ht, hts⟩ := List.forall_mem_cons.mp ht
      obtain ⟨hu, hus⟩ := List.forall_mem_cons.mp hu
      obtain ⟨rfl, hrest⟩ := ht.append_inj hu h
      rw [ih hts hus hrest]

/-- Of tokens that are not delimited a dump does not tell even how many there are. -/
example : String.join (Token.dumpLines [⟨.identifier, "a", none, 1⟩, ⟨.identifier, "b", none, 1⟩]) =
    String.join (Token.dumpLines [⟨.identifier, "a' @ 1\nIDENTIFIER 'b", none, 1⟩]) := by
  decide +kernel

theorem stored_writeDump (tokens : List Token) :
    (Token.writeDump .unlimited tokens).1.stored.toList =
      bytes (String.join (Token.dumpLines tokens)) :=
  (Sink.writeAll_ofCapacity none (Token.dumpLines tokens)).1

/-- The token dump is lossless: two sources have the same dump exactly if they have the same tokens,
with the same kinds, lexemes, values and lines. -/
theorem writeDump_lossless (source source' : String) :
    (Token.writeDump .unlimited (lex source).tokens).1.stored =
        (Token.writeDump .unlimited (lex source').tokens).1.stored ↔
      (lex source).tokens = (lex source').tokens := by
  constructor
  · intro h
    have hbytes : bytes (String.join (Token.dumpLines (lex source).tokens)) =
        bytes (String.join (Token.dumpLines (lex source').tokens)) := by
      rw [← stored_writeDump, ← stored_writeDump, h]
    exact dumpLines_inj (fun t => delimited_of_mem_tokens) (fun t => delimited_of_mem_tokens)
      (bytes_injective hbytes)
  · intro h
    rw [h]

end LoxFront
