import LoxFront.Proofs.Visits

namespace LoxFront
open Text

namespace Yield

def token? : Yield → Option Token
  | token t => some t
  | _ => none

def fault? : Yield → Option Fault
  | fault f => some f
  | _ => none

end Yield

theorem operator_isPlain (o : Operator) :
    (Tag.operator o).isTrivia = false ∧ (Tag.operator o).isFault = false := by
  cases o <;> decide

theorem filterMap_cons_toList {α β : Type} (f : α → Option β) (a : α) (l : List α) :
    (a :: l).filterMap f = (f a).toList ++ l.filterMap f := by
  rw [List.filterMap_cons]
  cases f a <;> rfl

section Loop
variable {σ : Type} (report : Reporter σ)

theorem Lexing.step_toList (s : Lexing σ) (l : Lexeme) :
    (s.step report l).tokens.toList = s.tokens.toList ++ l.yield.token?.toList ∧
      (s.step report l).faults.toList = s.faults.toList ++ l.yield.fault?.toList := by
  have htell : (s.step report l).tokens = (s.add l).tokens ∧
      (s.step report l).faults = (s.add l).faults := by
    unfold Lexing.step Lexing.tellNewest
    cases (s.add l).newest? <;> exact ⟨rfl, rfl⟩
  rw [htell.1, htell.2]
  unfold Lexing.add
  cases l.yield with
  | nothing => exact ⟨(List.append_nil _).symm, (List.append_nil _).symm⟩
  | token t => exact ⟨Array.toList_push, (List.append_nil _).symm⟩
  | fault f => exact ⟨(List.append_nil _).symm, Array.toList_push⟩

theorem Lexing.foldl_toList (ls : List Lexeme) (s : Lexing σ) :
    (ls.foldl (Lexing.step report) s).tokens.toList =
        s.tokens.toList ++ ls.filterMap (fun l => l.yield.token?) ∧
      (ls.foldl (Lexing.step report) s).faults.toList =
        s.faults.toList ++ ls.filterMap (fun l => l.yield.fault?) := by
  induction ls generalizing s with
  | nil => exact ⟨(List.append_nil _).symm, (List.append_nil _).symm⟩
  | cons l ls ih =>
    obtain ⟨ht, hf⟩ := ih (s.step report l)
    obtain ⟨ht', hf'⟩ := s.step_toList report l
    refine ⟨?_, ?_⟩
    · rw [List.foldl_cons, ht, ht', filterMap_cons_toList, List.append_assoc]
    · rw [List.foldl_cons, hf, hf', filterMap_cons_toList, List.append_assoc]

theorem lexWith_eq (state : σ) (source : String) :
    (lexWith report state source).1 =
      ⟨(Cursor.ofText source).lexemes.filterMap (fun l => l.yield.token?),
        (Cursor.ofText source).lexemes.filterMap (fun l => l.yield.fault?)⟩ := by
  obtain ⟨ht, hf⟩ :=
    Lexing.foldl_toList report (Cursor.ofText source).lexemes (Lexing.start state)
  unfold lexWith
  rw [Cursor.foldLexemes_eq_foldl]
  exact congrArg₂ Lexed.mk ht hf

theorem lexWith_fst (state : σ) (source : String) : (lexWith report state source).1 = lex source := by
  rw [lex, lexWith_eq, lexWith_eq]

def Reporter.tell (state : σ) (faults : List Fault) : σ :=
  faults.foldl (fun state f => report state f.line f.message) state

/-- The mark tells whether the last lexeme has a fault, however many faults there were before it: a
lexeme without one leaves as many as are marked. -/
theorem Lexing.newest?_add (s : Lexing σ) (l : Lexeme) : (s.add l).newest? = l.yield.fault? := by
  unfold Lexing.add
  cases l.yield with
  | nothing => exact if_neg (Nat.lt_irrefl s.faults.size)
  | token t => exact if_neg (Nat.lt_irrefl s.faults.size)
  | fault f =>
    have hlt : s.faults.size < (s.faults.push f).size := by
      rw [Array.size_push]
      exact Nat.lt_succ_self _
    have hback : (s.faults.push f).back? = some f := Array.back?_push
    exact (if_pos hlt).trans hback

theorem Lexing.reporter_step (s : Lexing σ) (l : Lexeme) :
    (s.step report l).reporter = Reporter.tell report s.reporter l.yield.fault?.toList := by
  have hadd : (s.add l).reporter = s.reporter := by
    unfold Lexing.add
    cases l.yield <;> rfl
  unfold Lexing.step Lexing.tellNewest
  rw [Lexing.newest?_add]
  cases l.yield.fault? with
  | none => exact hadd
  | some f =>
    rw [Option.toList_some, Reporter.tell, List.foldl_cons, List.foldl_nil, ← hadd]

theorem Lexing.foldl_reporter (ls : List Lexeme) (s : Lexing σ) :
    (ls.foldl (Lexing.step report) s).reporter =
      Reporter.tell report s.reporter (ls.filterMap fun l => l.yield.fault?) := by
  induction ls generalizing s with
  | nil => rfl
  | cons l ls ih =>
    rw [List.foldl_cons, ih, Lexing.reporter_step, filterMap_cons_toList, Reporter.tell,
      Reporter.tell, Reporter.tell, List.foldl_append]

/-- A reporter is told of the faults of a reading, in order, and of nothing else. -/
theorem lexWith_snd (state : σ) (source : String) :
    (lexWith report state source).2 = Reporter.tell report state (lex source).faults := by
  rw [← lexWith_fst report state, lexWith_eq]
  unfold lexWith
  rw [Cursor.foldLexemes_eq_foldl]
  exact Lexing.foldl_reporter report _ _

end Loop

theorem tokens_eq (source : String) :
    (lex source).tokens =
      (Cursor.ofText source).visits.filterMap fun c => c.next.1.yield.token? := by
  rw [lex, lexWith_eq, Cursor.lexemes_eq_map_visits, List.filterMap_map]
  rfl

theorem faults_eq (source : String) :
    (lex source).faults =
      (Cursor.ofText source).visits.filterMap fun c => c.next.1.yield.fault? := by
  rw [lex, lexWith_eq, Cursor.lexemes_eq_map_visits, List.filterMap_map,
    List.filterMap_map]
  rfl

end LoxFront
