import LoxFront.Proofs.Lines
import LoxFront.Proofs.Lookahead
import LoxFront.Proofs.Words

namespace LoxFront
open Text Lexical

/-- The causes of lexemes that run on to the end of a source. -/
def Cause.isOpen : Cause → Bool
  | unterminatedString | unterminatedComment | malformedCommentClose => true
  | unexpectedCharacter _ => false

def Token.down (k : UInt32) (t : Token) : Token :=
  { t with line := t.line + k }

def Fault.down (k : UInt32) (f : Fault) : Fault :=
  { f with line := f.line + k }

def Lexeme.down (k : UInt32) (l : Lexeme) : Lexeme :=
  { l with line := l.line + k }

theorem token?_down (k : UInt32) (l : Lexeme) :
    (l.down k).yield.token? = l.yield.token?.map (Token.down k) := by
  obtain ⟨tag, bytes, line⟩ := l
  cases tag <;> rfl

theorem fault?_down (k : UInt32) (l : Lexeme) :
    (l.down k).yield.fault? = l.yield.fault?.map (Fault.down k) := by
  obtain ⟨tag, bytes, line⟩ := l
  cases tag <;> rfl

theorem tokensOf_down (k : UInt32) (ls : List Lexeme) :
    tokensOf (ls.map (Lexeme.down k)) = (tokensOf ls).map (Token.down k) := by
  unfold tokensOf
  rw [List.filterMap_map, List.map_filterMap]
  congr 1
  funext l
  exact token?_down k l

theorem faultsOf_down (k : UInt32) (ls : List Lexeme) :
    faultsOf (ls.map (Lexeme.down k)) = (faultsOf ls).map (Fault.down k) := by
  unfold faultsOf
  rw [List.filterMap_map, List.map_filterMap]
  congr 1
  funext l
  exact fault?_down k l

theorem lexemeOf_add (n k : Nat) (p : Tag × List Char) :
    lexemeOf (n + k) p = (lexemeOf n p).down (UInt32.ofNat k) := by
  unfold lexemeOf Lexeme.down
  rw [UInt32.ofNat_add]

theorem placed_add (n k : Nat) (ps : List (Tag × List Char)) :
    placed (n + k) ps = (placed n ps).map (Lexeme.down (UInt32.ofNat k)) := by
  induction ps generalizing n with
  | nil => rfl
  | cons p ps ih =>
    have hline : n + k + p.2.count '\n' = n + p.2.count '\n' + k := by omega
    rw [placed, placed, hline, lexemeOf_add, ih, List.map_cons]

theorem exists_mem_placed {p : Tag × List Char} {ps : List (Tag × List Char)} (h : p ∈ ps)
    (n : Nat) : ∃ k, lexemeOf k p ∈ placed n ps := by
  induction ps generalizing n with
  | nil => exact absurd h List.not_mem_nil
  | cons q ps ih =>
    rcases List.mem_cons.mp h with rfl | h
    · exact ⟨_, List.mem_cons_self⟩
    · obtain ⟨k, hk⟩ := ih h (n + q.2.count '\n')
      exact ⟨k, List.mem_cons_of_mem _ hk⟩

theorem exists_fault_of_isOpen {l : Lexeme} (h : l.tag.isOpen = true) :
    ∃ f, l.yield.fault? = some f ∧ f.cause.isOpen = true := by
  obtain ⟨tag, bytes, line⟩ := l
  cases tag with
  | unterminatedString | unterminatedBlockComment | malformedBlockComment => exact ⟨_, rfl, rfl⟩
  | _ => cases h

theorem not_isOpen_of_faults {n : Nat} {ps : List (Tag × List Char)}
    (h : ∀ f ∈ faultsOf (placed n ps), f.cause.isOpen = false) : ∀ p ∈ ps, p.1.isOpen = false := by
  intro p hp
  rw [Bool.eq_false_iff]
  intro ho
  obtain ⟨k, hk⟩ := exists_mem_placed hp n
  obtain ⟨f, hf, hc⟩ := exists_fault_of_isOpen (l := lexemeOf k p) ho
  have hfalse := h f (List.mem_filterMap.mpr ⟨_, hk, hf⟩)
  rw [hc] at hfalse
  exact Bool.false_ne_true hfalse.symm

/-- A text whose words all end before its end keeps them if a newline and another text follow. -/
theorem Lexical.Munched.join {a b : List Char} {ps qs : List (Tag × List Char)}
    (ha : Munched a ps) (ho : ∀ p ∈ ps, p.1.isOpen = false) (hb : Munched b qs) :
    Munched (a ++ '\n' :: b) (ps ++ (.newline, ['\n']) :: qs) := by
  induction ha with
  | nil => exact .cons rfl (longest_newline b) hb
  | @cons text word rest t ps he hl _ ih =>
    obtain ⟨ht, ho⟩ := List.forall_mem_cons.mp ho
    have halike : Alike t rest (rest ++ '\n' :: b) := by
      have hend : Alike t [] ('\n' :: b) := alike_of_endsAt (by simp [EndsAt])
      have happ := hend.append rest
      rwa [List.append_nil] at happ
    subst he
    rw [List.append_assoc]
    exact .cons rfl (hl.congr ht halike) (ih ho)

section Bound
variable {source : String} (hn : (bytes source).count Byte.newline ≤ UInt32.size - 2)
include hn

theorem line_le_of_mem_found {f : Found} (hf : f ∈ found source) :
    f.line.toNat ≤ 1 + (bytes source).count Byte.newline := by
  rw [line_of_mem_found hn hf]
  exact Nat.add_le_add_left ((List.take_sublist _ _).count_le _) 1

theorem token_line_le {t : Token} (ht : t ∈ (lex source).tokens) :
    t.line.toNat ≤ 1 + (bytes source).count Byte.newline := by
  rw [tokens_eq_found] at ht
  obtain ⟨f, hf, hi⟩ := List.mem_filterMap.mp ht
  rw [← Found.line_of_token hi]
  exact line_le_of_mem_found hn hf

theorem fault_line_le {e : Fault} (he : e ∈ (lex source).faults) :
    e.line.toNat ≤ 1 + (bytes source).count Byte.newline := by
  rw [faults_eq_found] at he
  obtain ⟨f, hf, hi⟩ := List.mem_filterMap.mp he
  rw [← Found.line_of_fault hi]
  exact line_le_of_mem_found hn hf

end Bound

section Join
variable (ps qs : List (Tag × List Char))

theorem newlines_join :
    newlines (ps ++ (.newline, ['\n']) :: qs) = newlines qs + (1 + newlines ps) := by
  unfold newlines
  simp only [List.flatMap_append, List.flatMap_cons, List.count_append, List.count_singleton_self]
  omega

theorem placed_join :
    placed 1 (ps ++ (.newline, ['\n']) :: qs) =
      placed 1 ps ++ lexemeOf (1 + newlines ps + 1) (.newline, ['\n']) ::
        (placed 1 qs).map (Lexeme.down (UInt32.ofNat (1 + newlines ps))) := by
  have hstart : 1 + (1 + newlines ps) = 1 + newlines ps + 1 := Nat.add_comm _ _
  rw [placed_append, ← placed_add, hstart]
  rfl

theorem tokensOf_join :
    tokensOf (placed 1 (ps ++ (.newline, ['\n']) :: qs)) =
      tokensOf (placed 1 ps) ++
        (tokensOf (placed 1 qs)).map (Token.down (UInt32.ofNat (1 + newlines ps))) := by
  rw [placed_join, tokensOf_append, ← tokensOf_down]
  rfl

theorem faultsOf_join :
    faultsOf (placed 1 (ps ++ (.newline, ['\n']) :: qs)) =
      faultsOf (placed 1 ps) ++
        (faultsOf (placed 1 qs)).map (Fault.down (UInt32.ofNat (1 + newlines ps))) := by
  rw [placed_join, faultsOf_append, ← faultsOf_down]
  rfl

end Join

/-- If no lexeme of a source runs on to its end, joining another source to it by a newline joins
their tokens and their faults, those of the second one as many lines down as the first one ends on. -/
theorem lex_append_newline {a b : String}
    (ha : ∀ f ∈ (lex a).faults, f.cause.isOpen = false)
    (hn : (bytes (a ++ "\n" ++ b)).count Byte.newline ≤ UInt32.size - 2) :
    ∃ init line, (lex a).tokens = init ++ [Token.eof line] ∧
      (lex (a ++ "\n" ++ b)).tokens = init ++ (lex b).tokens.map (Token.down line) ∧
      (lex (a ++ "\n" ++ b)).faults = (lex a).faults ++ (lex b).faults.map (Fault.down line) ∧
      (∀ t ∈ (lex b).tokens, t.line.toNat + line.toNat < UInt32.size) ∧
      ∀ f ∈ (lex b).faults, f.line.toNat + line.toNat < UInt32.size := by
  obtain ⟨ps, hps⟩ := exists_munched a
  obtain ⟨qs, hqs⟩ := exists_munched b
  have hsize : UInt32.size = 4294967296 := rfl
  have hcount : (bytes (a ++ "\n" ++ b)).count Byte.newline =
      (bytes a).count Byte.newline + 1 + (bytes b).count Byte.newline := by
    rw [bytes_append, bytes_append, List.count_append, List.count_append]
    rfl
  have hna : (bytes a).count Byte.newline ≤ UInt32.size - 2 := by omega
  have hnb : (bytes b).count Byte.newline ≤ UInt32.size - 2 := by omega
  have hnew := newlines_eq hps
  have hla := lex_eq_placed hps hna
  have hlb := lex_eq_placed hqs hnb
  have hjoin : Munched (a ++ "\n" ++ b).toList (ps ++ (.newline, ['\n']) :: qs) := by
    rw [String.toList_append, String.toList_append, List.append_assoc]
    apply hps.join _ hqs
    apply not_isOpen_of_faults (n := 1)
    rwa [hla] at ha
  have hlab := lex_eq_placed hjoin hn
  have hline : (UInt32.ofNat (1 + newlines ps)).toNat = 1 + newlines ps :=
    UInt32.toNat_ofNat_of_lt (by omega)
  have heof : Token.eof (UInt32.ofNat (1 + newlines (ps ++ (.newline, ['\n']) :: qs))) =
      (Token.eof (UInt32.ofNat (1 + newlines qs))).down (UInt32.ofNat (1 + newlines ps)) := by
    rw [newlines_join, ← Nat.add_assoc, UInt32.ofNat_add]
    rfl
  refine ⟨tokensOf (placed 1 ps), UInt32.ofNat (1 + newlines ps), ?_, ?_, ?_, ?_, ?_⟩
  · rw [hla]
  · rw [hlab, hlb, List.map_append, List.map_singleton, ← heof, tokensOf_join, List.append_assoc]
  · rw [hlab, hla, hlb, faultsOf_join]
  · intro t ht
    have hle := token_line_le hnb ht
    omega
  · intro f hf
    have hle := fault_line_le hnb hf
    omega

theorem lex_append_newline_comment :
    (∀ f ∈ (lex "é\n12. //x").faults, f.cause.isOpen = false) ∧
      (bytes ("é\n12. //x" ++ "\n" ++ "5/*")).count Byte.newline ≤ UInt32.size - 2 ∧
      ∃ init line, (lex "é\n12. //x").tokens = init ++ [Token.eof line] ∧
        (lex ("é\n12. //x" ++ "\n" ++ "5/*")).tokens =
          init ++ (lex "5/*").tokens.map (Token.down line) ∧
        (lex ("é\n12. //x" ++ "\n" ++ "5/*")).faults =
          (lex "é\n12. //x").faults ++ (lex "5/*").faults.map (Fault.down line) ∧
        (∀ t ∈ (lex "5/*").tokens, t.line.toNat + line.toNat < UInt32.size) ∧
        ∀ f ∈ (lex "5/*").faults, f.line.toNat + line.toNat < UInt32.size := by
  have ha : ∀ f ∈ (lex "é\n12. //x").faults, f.cause.isOpen = false := by decide +kernel
  have hn : (bytes ("é\n12. //x" ++ "\n" ++ "5/*")).count Byte.newline ≤ UInt32.size - 2 := by
    decide +kernel
  exact ⟨ha, hn, lex_append_newline ha hn⟩

end LoxFront
