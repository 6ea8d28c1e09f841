import LoxFront.Proofs.Account

/-! Folding acts on each line by itself, since diagnostics on different lines never repeat each
other, and a stable sort brings the lines together again. -/
namespace LoxFront

/-- Striking out repeats commutes with a filter that keeps or drops all elements of a key together. -/
theorem firsts_filter {β γ : Type} [DecidableEq γ] {key : β → γ} {p : β → Bool}
    (hp : ∀ a b, key a = key b → p a = p b) (l : List β) :
    (firsts key l).filter p = firsts key (l.filter p) := by
  -- Whether the last element counts depends on those before it, so the induction is from the end.
  induction l using List.reverseRecOn with
  | nil => rfl
  | append_singleton l e ih =>
    rw [firsts_concat, List.filter_append, List.filter_append, ih]
    cases he : p e with
    | false =>
      have hdrop : [e].filter p = [] := by
        simp [he]
      have hdrop' : (if key e ∈ l.map key then [] else [e]).filter p = [] := by
        split_ifs
        · rfl
        · exact hdrop
      rw [hdrop, hdrop', List.append_nil, List.append_nil]
    | true =>
      have hmem : key e ∈ l.map key ↔ key e ∈ (l.filter p).map key := by
        constructor
        · intro h
          obtain ⟨b, hb, hk⟩ := List.mem_map.mp h
          have hpb : p b = true := (hp b e hk).trans he
          exact List.mem_map.mpr ⟨b, List.mem_filter.mpr ⟨hb, hpb⟩, hk⟩
        · intro h
          exact (List.filter_sublist.map key).subset h
      have hkeep : [e].filter p = [e] := by
        simp [he]
      rw [hkeep, firsts_concat]
      simp only [← hmem]
      split_ifs
      · rfl
      · rw [hkeep]

theorem onLine_distinct (limits : Limits) (line : Option UInt32) (ds : List Diagnostic) :
    onLine line (limits.distinct Diagnostic.key ds) =
      limits.distinct Diagnostic.key (onLine line ds) := by
  have hline (a b : Diagnostic) (h : a.key = b.key) :
      decide (a.line = line) = decide (b.line = line) := by
    have hl : a.line = b.line := congrArg Prod.fst h
    rw [hl]
  unfold Limits.distinct
  split_ifs
  · exact firsts_filter hline ds
  · rfl

theorem perm_of_onLine_eq {ds es : List Diagnostic}
    (h : ∀ line, onLine line ds = onLine line es) : ds.Perm es := by
  have hd := sortedByLine_mergeSort ds
  have he := sortedByLine_mergeSort es
  have hsort := eq_of_onLine_eq hd.ordered he.ordered fun line => by
    rw [hd.stable, he.stable, h]
  exact hd.perm.symm.trans (hsort ▸ he.perm)

namespace Docket
variable {limits : Limits} {offered : List Diagnostic} {d : Docket}

/-- Without a limit everything that repeats nothing is kept, and the rest is counted as repeats. -/
theorem After.unlimited (h : d.After limits offered) (h0 : limits.errorLimit = 0) :
    d.kept.toList = limits.distinct Diagnostic.key offered ∧
      d.tally = ⟨(limits.distinct Diagnostic.key offered).length, 0,
        offered.length - (limits.distinct Diagnostic.key offered).length⟩ := by
  have hcut (l : List Diagnostic) : limits.cut l = l := if_pos h0
  have hkept := h.kept_eq
  have hshown := h.holds.shown_eq
  have hcounted := h.holds.counted
  have hrepeated := h.repeated
  rw [hcut] at hkept
  rw [h.limits_eq, hcut] at hshown
  have hover : d.tally.overLimit = 0 := by
    omega
  have hrest : d.tally.repeated =
      offered.length - (limits.distinct Diagnostic.key offered).length := by
    omega
  refine ⟨hkept, ?_⟩
  calc
    d.tally = ⟨d.tally.shown, d.tally.overLimit, d.tally.repeated⟩ := rfl
    _ = _ := by rw [hshown, hover, hrest]

theorem After.sortedByLine (h : d.After limits offered) (h0 : limits.errorLimit = 0) :
    SortedByLine (limits.distinct Diagnostic.key offered) d.sorted := by
  rw [← (h.unlimited h0).1]
  exact sortedByLine_mergeSort d.kept.toList

/-- Without a limit two runs in which each line comes with the same diagnostics in the same order
leave the same sorted list and the same counts. -/
theorem sorted_pushAll_of_onLine_eq (limits : Limits) (h0 : limits.errorLimit = 0)
    (ds es : List Diagnostic) (h : ∀ line, onLine line ds = onLine line es) :
    ((empty limits).pushAll ds).sorted = ((empty limits).pushAll es).sorted ∧
    ((empty limits).pushAll ds).tally = ((empty limits).pushAll es).tally ∧
    ∀ line, onLine line ((empty limits).pushAll ds).sorted =
      limits.distinct Diagnostic.key (onLine line ds) := by
  have hd := after_pushAll limits ds
  have he := after_pushAll limits es
  have hds := hd.sortedByLine h0
  have hes := he.sortedByLine h0
  have hlines (line : Option UInt32) : onLine line (limits.distinct Diagnostic.key ds) =
      onLine line (limits.distinct Diagnostic.key es) := by
    rw [onLine_distinct, onLine_distinct, h]
  refine ⟨?_, ?_, ?_⟩
  · apply eq_of_onLine_eq hds.ordered hes.ordered
    intro line
    rw [hds.stable, hes.stable, hlines]
  · -- The counts are lengths, and these do not depend on an order.
    have hkept := (perm_of_onLine_eq hlines).length_eq
    have hoffered := (perm_of_onLine_eq h).length_eq
    rw [(hd.unlimited h0).2, (he.unlimited h0).2, hkept, hoffered]
  · intro line
    rw [hds.stable, onLine_distinct]

/-- A repeat on the first line may come before or after what is offered on the second. -/
theorem sorted_pushAll_of_onLine_eq_two :
    (∀ line, onLine line [(Diagnostic.ofCode .e0002).atLine 1, (Diagnostic.ofCode .e0001).atLine 2,
        (Diagnostic.ofCode .e0002).atLine 1] =
      onLine line [(Diagnostic.ofCode .e0001).atLine 2, (Diagnostic.ofCode .e0002).atLine 1,
        (Diagnostic.ofCode .e0002).atLine 1]) ∧
    ((empty ⟨0, true⟩).pushAll [(Diagnostic.ofCode .e0002).atLine 1,
        (Diagnostic.ofCode .e0001).atLine 2, (Diagnostic.ofCode .e0002).atLine 1]).sorted =
      ((empty ⟨0, true⟩).pushAll [(Diagnostic.ofCode .e0001).atLine 2,
        (Diagnostic.ofCode .e0002).atLine 1, (Diagnostic.ofCode .e0002).atLine 1]).sorted := by
  have h (line : Option UInt32) :
      onLine line [(Diagnostic.ofCode .e0002).atLine 1, (Diagnostic.ofCode .e0001).atLine 2,
        (Diagnostic.ofCode .e0002).atLine 1] =
      onLine line [(Diagnostic.ofCode .e0001).atLine 2, (Diagnostic.ofCode .e0002).atLine 1,
        (Diagnostic.ofCode .e0002).atLine 1] := by
    by_cases h1 : some 1 = line
    · subst h1
      decide
    · -- Off the first line only the one on the second is left, if that.
      simp [onLine, List.filter_cons, Diagnostic.atLine, h1]
  exact ⟨h, (sorted_pushAll_of_onLine_eq ⟨0, true⟩ rfl _ _ h).1⟩

end Docket

end LoxFront
