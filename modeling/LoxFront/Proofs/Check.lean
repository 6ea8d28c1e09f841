import LoxFront.Command.Check
import LoxFront.Proofs.Docket
import LoxFront.Proofs.Lines

/-! Faults come in the order of lines and their diagnostics tell them apart, so sorting moves none
of them and folding loses none. -/
namespace LoxFront
open Text

theorem unexpectedCharacter_message_injective {x y : Char}
    (h : (Cause.unexpectedCharacter x).message = (Cause.unexpectedCharacter y).message) : x = y := by
  have hquoted := (String.append_left_inj "'.").mp h
  exact String.singleton_inj.mp ((String.append_right_inj _).mp hquoted)

theorem Cause.eq_of_code_of_message {a b : Cause} (hc : a.code = b.code)
    (hm : a.message = b.message) : a = b := by
  cases a with
  | unexpectedCharacter x =>
    cases b with
    | unexpectedCharacter y => rw [unexpectedCharacter_message_injective hm]
    | _ => cases hc
  | _ =>
    cases b with
    | unexpectedCharacter y => cases hc
    | _ => first
      | rfl
      | cases hc

theorem key_ofFault_injective : Function.Injective fun f => (Diagnostic.ofFault f).key := by
  intro f g h
  obtain ⟨line, cause⟩ := f
  obtain ⟨line', cause'⟩ := g
  obtain ⟨hl, hk⟩ := Prod.mk.inj h
  obtain ⟨hc, hm⟩ := Prod.mk.inj hk
  obtain rfl : line = line' := Option.some.inj hl
  obtain rfl : cause = cause' := Cause.eq_of_code_of_message hc hm
  rfl

/-- The faults that are shown: each of them once if repeats are folded, and as many of these as the
limit allows. -/
def Limits.shown (limits : Limits) (faults : List Fault) : List Fault :=
  limits.cut (if limits.deduplicate then faults.eraseDups else faults)

theorem Limits.shown_eq_nil_iff (limits : Limits) {faults : List Fault} :
    limits.shown faults = [] ↔ faults = [] := by
  have hd : (if limits.deduplicate then faults.eraseDups else faults) =
      limits.distinct id faults := by
    rw [Limits.distinct, firsts_of_injective id Function.injective_id]
  rw [Limits.shown, hd, Limits.cut_eq_nil_iff, Limits.distinct_eq_nil_iff]

section Docket
variable (limits : Limits) (faults : List Fault)

theorem after_docketOf :
    (docketOf limits faults).After limits (faults.map Diagnostic.ofFault) :=
  Docket.after_pushAll limits _

theorem kept_docketOf :
    (docketOf limits faults).kept.toList = (limits.shown faults).map Diagnostic.ofFault := by
  have hd : limits.distinct (fun f => (Diagnostic.ofFault f).key) faults =
      if limits.deduplicate then faults.eraseDups else faults := by
    rw [Limits.distinct, firsts_of_injective _ key_ofFault_injective]
  calc
    (docketOf limits faults).kept.toList
        = limits.cut (limits.distinct Diagnostic.key (faults.map Diagnostic.ofFault)) :=
      (after_docketOf limits faults).kept_eq
    _ = (limits.cut (limits.distinct (fun f => (Diagnostic.ofFault f).key) faults)).map
          Diagnostic.ofFault := by
      rw [Limits.distinct_map, Limits.cut_map]
    _ = (limits.shown faults).map Diagnostic.ofFault := by
      rw [hd, Limits.shown]

theorem total_docketOf : (docketOf limits faults).tally.total = faults.length := by
  rw [(after_docketOf limits faults).total_eq, List.length_map]

theorem sorted_docketOf (hs : faults.Pairwise fun f g => f.line ≤ g.line) :
    (docketOf limits faults).sorted = (docketOf limits faults).kept.toList := by
  apply (after_docketOf limits faults).sorted_eq
  apply List.pairwise_map.mpr
  apply hs.imp
  intro f g hfg
  exact Nat.succ_le_succ (UInt32.le_iff_toNat_le.mp hfg)

end Docket

namespace Emitter
variable {σ : Type}

def receive (e : Emitter σ) (state : σ) : EmitterCall → σ
  | .emit d => e.emit state d
  | .summary errors => e.summary state errors
  | .flush => e.flush state

theorem emitAll_eq_receive (e : Emitter σ) (state : σ) (ds : List Diagnostic) :
    e.emitAll state ds = (ds.map EmitterCall.emit).foldl e.receive state := by
  rw [List.foldl_map]
  rfl

end Emitter

/-- The calls that an emitter gets for a source with faults. -/
def checkCalls (limits : Limits) (faults : List Fault) : List EmitterCall :=
  (limits.shown faults).map (fun f => .emit (Diagnostic.ofFault f)) ++
    [.summary faults.length, .flush]

section Outcome
variable {σ : Type} (emitter : Emitter σ) (limits : Limits) {source : String} (state : σ)

theorem checkSource_of_clean (h : (lex source).faults = []) :
    checkSource emitter limits source state = (.ok (lex source).tokens.length, state) := by
  have hf : (docketOf limits (lex source).faults).failed? = none := by
    rw [Docket.failed?, total_docketOf, h]
    rfl
  simp only [checkSource, hf]

theorem checkSource_of_pos (h : 0 < (lex source).faults.length) :
    checkSource emitter limits source state =
      (.error ⟨(lex source).faults.length, h⟩,
        emitter.flush (emitter.summary
          (emitter.emitAll state (docketOf limits (lex source).faults).sorted)
          (lex source).faults.length)) := by
  have hf : (docketOf limits (lex source).faults).failed? =
      some ⟨(lex source).faults.length, h⟩ := by
    rw [Docket.failed?, total_docketOf]
    exact dif_pos h
  simp only [checkSource, hf, total_docketOf]

theorem checkSource_of_faults (h : 0 < (lex source).faults.length)
    (hs : (lex source).faults.Pairwise fun f g => f.line ≤ g.line) :
    checkSource emitter limits source state =
      (.error ⟨(lex source).faults.length, h⟩,
        (checkCalls limits (lex source).faults).foldl emitter.receive state) := by
  rw [checkSource_of_pos emitter limits state h, sorted_docketOf limits _ hs, kept_docketOf,
    Emitter.emitAll_eq_receive, List.map_map, checkCalls, List.foldl_append]
  rfl

end Outcome

theorem Cursor.length_lexemes_le (c : Cursor) : c.lexemes.length ≤ c.rest.length + 1 := by
  fun_induction Cursor.lexemes c with
  | case1 c h => exact Nat.le_add_left 1 _
  | case2 c h ih =>
    have hlt := Cursor.length_rest_next_lt c h
    rw [List.length_cons]
    omega

theorem length_contributions_le (ls : List Lexeme) :
    (ls.filterMap fun l => l.yield.token?).length + (ls.filterMap fun l => l.yield.fault?).length ≤
      ls.length := by
  induction ls with
  | nil => exact Nat.le_refl 0
  | cons l ls ih =>
    have hone : l.yield.token?.toList.length + l.yield.fault?.toList.length ≤ 1 := by
      cases l.yield <;> exact Nat.le_of_ble_eq_true rfl
    rw [filterMap_cons_toList, filterMap_cons_toList, List.length_append, List.length_append,
      List.length_cons]
    omega

theorem length_tokens_add_length_faults_le (source : String) :
    (lex source).tokens.length + (lex source).faults.length ≤ size source + 1 := by
  unfold lex
  rw [lexWith_eq]
  exact (length_contributions_le _).trans (Cursor.length_lexemes_le _)

/-- An emitter gets one call for each fault shown, in source order, then the number of all faults
and a flush. Sorting by line moves no diagnostic, and no two different faults are folded into one. -/
theorem checkSource_reports_faults {σ : Type} (emitter : Emitter σ) (limits : Limits)
    (source : String) (state : σ)
    (hn : (bytes source).count Byte.newline ≤ UInt32.size - 2) :
    ((lex source).faults = [] →
      checkSource emitter limits source state = (.ok (lex source).tokens.length, state)) ∧
    ((lex source).faults ≠ [] →
      limits.shown (lex source).faults ≠ [] ∧
      ∃ failed : Failed, failed.errors = (lex source).faults.length ∧
        checkSource emitter limits source state =
          (.error failed, (checkCalls limits (lex source).faults).foldl emitter.receive state)) ∧
    (docketOf limits (lex source).faults).sorted =
      (docketOf limits (lex source).faults).kept.toList ∧
    (∀ f g : Fault, (Diagnostic.ofFault f).key = (Diagnostic.ofFault g).key → f = g) ∧
    (∀ other : Limits, (checkSource emitter other source state).1 =
      (checkSource emitter limits source state).1) ∧
    (lex source).tokens.length + (lex source).faults.length ≤ size source + 1 := by
  have hs := fault_lines_sorted hn
  refine ⟨checkSource_of_clean emitter limits state, ?_, sorted_docketOf limits _ hs,
    fun f g h => key_ofFault_injective h, ?_, length_tokens_add_length_faults_le source⟩
  · intro hne
    refine ⟨mt limits.shown_eq_nil_iff.mp hne, ⟨_, List.length_pos_iff.mpr hne⟩, rfl, ?_⟩
    exact checkSource_of_faults emitter limits state (List.length_pos_iff.mpr hne) hs
  · intro other
    by_cases h : (lex source).faults = []
    · rw [checkSource_of_clean emitter other state h, checkSource_of_clean emitter limits state h]
    · have hpos := List.length_pos_iff.mpr h
      rw [checkSource_of_faults emitter other state hpos hs,
        checkSource_of_faults emitter limits state hpos hs]

/-- Of four faults with one repeat a limit of two shows the first two different ones. -/
theorem checkSource_reports_faults_repeated :
    (bytes "@@\n#$").count Byte.newline ≤ UInt32.size - 2 ∧ (lex "@@\n#$").faults ≠ [] ∧
      ∃ failed : Failed, failed.errors = 4 ∧
        checkSource Emitter.recording ⟨2, true⟩ "@@\n#$" #[] =
          (.error failed,
            #[.emit (Diagnostic.ofFault ⟨1, .unexpectedCharacter '@'⟩),
              .emit (Diagnostic.ofFault ⟨2, .unexpectedCharacter '#'⟩), .summary 4, .flush]) := by
  have hn : (bytes "@@\n#$").count Byte.newline ≤ UInt32.size - 2 := by
    decide
  have hf : (lex "@@\n#$").faults =
      [⟨1, .unexpectedCharacter '@'⟩, ⟨1, .unexpectedCharacter '@'⟩,
        ⟨2, .unexpectedCharacter '#'⟩, ⟨2, .unexpectedCharacter '$'⟩] := by
    decide +kernel
  have hne : (lex "@@\n#$").faults ≠ [] := by
    rw [hf]
    exact List.cons_ne_nil _ _
  obtain ⟨-, failed, he, hc⟩ :=
    (checkSource_reports_faults Emitter.recording ⟨2, true⟩ "@@\n#$" #[] hn).2.1 hne
  rw [hf] at he hc
  exact ⟨hn, hne, failed, he, hc⟩

end LoxFront
