import LoxFront.Proofs.Account

namespace LoxFront

def Tally.count (t : Tally) : Verdict → Tally
  | .kept => { t with shown := t.shown + 1 }
  | .overLimit => { t with overLimit := t.overLimit + 1 }
  | .repeated => { t with repeated := t.repeated + 1 }

namespace Docket

def Keeps (d : Docket) (key : Diagnostic.Key) : Prop :=
  key ∈ d.kept.toList.map Diagnostic.key

/-- A diagnostic with this key came when the docket was full, and was turned away for that. -/
def TurnedAway (limits : Limits) (offered : List Diagnostic) (key : Diagnostic.Key) : Prop :=
  ∃ before f after, offered = before ++ f :: after ∧ f.key = key ∧
    (((empty limits).pushAll before).push f).1 = .overLimit

/-- The answer to a diagnostic tells whether one like it is kept: a repeat has its like among those
kept, and one that has not, and finds no room, is over the limit and counted as such. -/
structure TellsKept (d : Docket) (e : Diagnostic) : Prop where
  of_repeated : (d.push e).1 = .repeated → d.Keeps e.key
  of_full : d.limitReached = true → ¬ d.Keeps e.key →
    (d.push e).1 = .overLimit ∧ (d.push e).2.tally.overLimit = d.tally.overLimit + 1

theorem add_verdict (d : Docket) (e : Diagnostic) :
    (d.add e).1 = if d.limitReached then .overLimit else .kept := by
  unfold add
  split_ifs <;> rfl

theorem add_leaves (d : Docket) (e : Diagnostic) :
    (d.add e).2.tally = d.tally.count (d.add e).1 ∧
      (d.add e).2.kept.toList = d.kept.toList ++ if (d.add e).1 = .kept then [e] else [] := by
  unfold add
  split_ifs
  · contradiction
  · exact ⟨rfl, (List.append_nil _).symm⟩
  · exact ⟨rfl, Array.toList_push⟩
  · contradiction

theorem push_leaves (d : Docket) (e : Diagnostic) :
    (d.push e).2.tally = d.tally.count (d.push e).1 ∧
      (d.push e).2.kept.toList = d.kept.toList ++ if (d.push e).1 = .kept then [e] else [] := by
  unfold push
  by_cases hd : d.limits.deduplicate = true
  · rw [if_pos hd]
    by_cases hk : d.seen.contains e.key = true
    · rw [if_pos hk]
      exact ⟨rfl, (List.append_nil _).symm⟩
    · rw [if_neg hk]
      exact add_leaves { d with seen := e.key :: d.seen } e
  · rw [if_neg hd]
    exact add_leaves d e

section Verdict
variable {limits : Limits} {offered : List Diagnostic} {d : Docket}

theorem After.verdict_eq (h : d.After limits offered) (e : Diagnostic) :
    (d.push e).1 =
      if limits.deduplicate = true ∧ e.key ∈ offered.map Diagnostic.key then .repeated
      else if d.limitReached then .overLimit else .kept := by
  obtain ⟨rfl, hseen, -, -⟩ := h
  unfold Docket.push
  by_cases hd : d.limits.deduplicate = true
  · have hseen : d.seen.contains e.key = true ↔ e.key ∈ offered.map Diagnostic.key := by
      rw [List.contains_iff_mem, hseen hd]
    rw [if_pos hd]
    by_cases hk : d.seen.contains e.key = true
    · rw [if_pos hk, if_pos ⟨hd, hseen.mp hk⟩]
    · rw [if_neg hk, if_neg fun hm => hk (hseen.mpr hm.2)]
      exact add_verdict { d with seen := e.key :: d.seen } e
  · rw [if_neg hd, if_neg fun hm => hd hm.1]
    exact add_verdict d e

theorem After.repeated_iff (h : d.After limits offered) (e : Diagnostic) :
    (d.push e).1 = .repeated ↔
      limits.deduplicate = true ∧ e.key ∈ offered.map Diagnostic.key := by
  rw [h.verdict_eq]
  split_ifs with hr hf
  · exact iff_of_true rfl hr
  · exact iff_of_false id hr
  · exact iff_of_false id hr

theorem After.overLimit_iff (h : d.After limits offered) (e : Diagnostic) :
    (d.push e).1 = .overLimit ↔ d.limitReached = true ∧
      ¬ (limits.deduplicate = true ∧ e.key ∈ offered.map Diagnostic.key) := by
  rw [h.verdict_eq]
  split_ifs with hr hf
  · exact iff_of_false id fun hm => hm.2 hr
  · exact iff_of_true rfl ⟨hf, hr⟩
  · exact iff_of_false id fun hm => hf hm.1

theorem After.mem_offered_of_keeps (h : d.After limits offered) {key : Diagnostic.Key}
    (hk : d.Keeps key) : key ∈ offered.map Diagnostic.key := by
  have hsub : d.kept.toList.Sublist offered := by
    rw [h.kept_eq]
    exact (limits.cut_sublist _).trans (limits.distinct_sublist _ _)
  exact (hsub.map Diagnostic.key).subset hk

end Verdict

theorem pushAll_concat (d : Docket) (l : List Diagnostic) (f : Diagnostic) :
    d.pushAll (l ++ [f]) = ((d.pushAll l).push f).2 :=
  List.foldl_append

theorem keeps_push {d : Docket} {key : Diagnostic.Key} (h : d.Keeps key) (e : Diagnostic) :
    (d.push e).2.Keeps key := by
  rw [Keeps, (push_leaves d e).2, List.map_append]
  exact List.mem_append_left _ h

theorem kept_push_of_full {d : Docket} (h : d.limitReached = true) (e : Diagnostic) :
    (d.push e).2.kept.toList = d.kept.toList := by
  have hverdict : (d.push e).1 ≠ .kept := by
    have hadd (d : Docket) (h : d.limitReached = true) : (d.add e).1 ≠ .kept := by
      rw [add_verdict, if_pos h]
      exact Verdict.noConfusion
    unfold push
    split_ifs
    · exact Verdict.noConfusion
    · exact hadd { d with seen := e.key :: d.seen } h
    · exact hadd d h
  rw [(push_leaves d e).2, if_neg hverdict, List.append_nil]

theorem kept_pushAll_of_full {d : Docket} (h : d.limitReached = true) (more : List Diagnostic) :
    (d.pushAll more).kept.toList = d.kept.toList := by
  induction more generalizing d with
  | nil => rfl
  | cons e more ih =>
    calc
      (d.pushAll (e :: more)).kept.toList = (d.push e).2.kept.toList :=
        ih (limitReached_push h e)
      _ = d.kept.toList := kept_push_of_full h e

section Run
variable {limits : Limits} {offered : List Diagnostic} {key : Diagnostic.Key}

theorem TurnedAway.mem_offered (h : TurnedAway limits offered key) :
    key ∈ offered.map Diagnostic.key := by
  obtain ⟨before, f, after, rfl, rfl, -⟩ := h
  apply List.mem_map_of_mem
  exact List.mem_append_right before List.mem_cons_self

/-- Once folding has turned a diagnostic away, none like it is ever kept. -/
theorem TurnedAway.not_keeps (h : TurnedAway limits offered key)
    (hd : limits.deduplicate = true) : ¬ ((empty limits).pushAll offered).Keeps key := by
  obtain ⟨before, f, after, rfl, rfl, hover⟩ := h
  have hbefore := after_pushAll limits before
  obtain ⟨hfull, hnew⟩ := (hbefore.overLimit_iff f).mp hover
  -- From here on the docket is full, so what it keeps in the end was kept before `f` came.
  have hkept : ((empty limits).pushAll (before ++ f :: after)).kept.toList =
      ((empty limits).pushAll before).kept.toList := by
    calc
      ((empty limits).pushAll (before ++ f :: after)).kept.toList
          = (((empty limits).pushAll before).pushAll (f :: after)).kept.toList := by
        rw [pushAll, List.foldl_append]
        rfl
      _ = ((empty limits).pushAll before).kept.toList := kept_pushAll_of_full hfull _
  intro hk
  rw [Keeps, hkept] at hk
  exact hnew ⟨hd, hbefore.mem_offered_of_keeps hk⟩

theorem keeps_or_turnedAway (h : key ∈ offered.map Diagnostic.key) :
    ((empty limits).pushAll offered).Keeps key ∨ TurnedAway limits offered key := by
  induction offered using List.reverseRecOn with
  | nil => exact absurd h List.not_mem_nil
  | append_singleton l f ih =>
    rw [pushAll_concat]
    by_cases hl : key ∈ l.map Diagnostic.key
    · rcases ih hl with hk | ⟨before, g, after, rfl, hg, hover⟩
      · exact Or.inl (keeps_push hk f)
      · refine Or.inr ⟨before, g, after ++ [f], ?_, hg, hover⟩
        rw [List.append_assoc, List.cons_append]
    · have hf : f.key = key := by
        rw [List.map_append, List.mem_append, List.map_singleton, List.mem_singleton] at h
        exact (h.resolve_left hl).symm
      subst hf
      have hleaves := (push_leaves ((empty limits).pushAll l) f).2
      cases hv : (((empty limits).pushAll l).push f).1 with
      | kept =>
        rw [hv, if_pos rfl] at hleaves
        left
        rw [Keeps, hleaves, List.map_append]
        exact List.mem_append_right _ (List.mem_singleton_self _)
      | overLimit => exact Or.inr ⟨l, f, [], rfl, rfl, hv⟩
      | repeated => exact absurd ((((after_pushAll limits l).repeated_iff f).mp hv).2) hl

end Run

/-- After any run the answer to a diagnostic tells whether one like it is kept, except if folding has
turned one like it away. It is called a repeat then too, although none like it is kept. -/
theorem tellsKept_iff (limits : Limits) (offered : List Diagnostic) (e : Diagnostic) :
    (((empty limits).pushAll offered).TellsKept e ↔
      ¬ (limits.deduplicate = true ∧ TurnedAway limits offered e.key)) ∧
    ((((empty limits).pushAll offered).push e).1 = .repeated ∧
        ¬ ((empty limits).pushAll offered).Keeps e.key ↔
      limits.deduplicate = true ∧ TurnedAway limits offered e.key) := by
  have hafter := after_pushAll limits offered
  have hrepeat : (((empty limits).pushAll offered).push e).1 = .repeated ∧
      ¬ ((empty limits).pushAll offered).Keeps e.key ↔
      limits.deduplicate = true ∧ TurnedAway limits offered e.key := by
    rw [hafter.repeated_iff]
    constructor
    · rintro ⟨⟨hd, hmem⟩, hk⟩
      exact ⟨hd, (keeps_or_turnedAway hmem).resolve_left hk⟩
    · rintro ⟨hd, ht⟩
      exact ⟨⟨hd, ht.mem_offered⟩, ht.not_keeps hd⟩
  refine ⟨?_, hrepeat⟩
  rw [← hrepeat]
  constructor
  · rintro h ⟨hr, hk⟩
    exact hk (h.of_repeated hr)
  · intro h
    constructor
    · intro hr
      by_contra hk
      exact h ⟨hr, hk⟩
    · intro hfull hk
      have hover : (((empty limits).pushAll offered).push e).1 = .overLimit := by
        rw [hafter.overLimit_iff, ← hafter.repeated_iff]
        exact ⟨hfull, fun hr => h ⟨hr, hk⟩⟩
      refine ⟨hover, ?_⟩
      rw [(push_leaves _ e).1, hover]
      rfl

/-- With room for one diagnostic, the third of three is called a repeat of the second, which is not
kept. -/
theorem repeated_of_turnedAway :
    ¬ ((empty ⟨1, true⟩).pushAll [(Diagnostic.ofCode .e0002).atLine 1,
      (Diagnostic.ofCode .e0002).atLine 2]).TellsKept ((Diagnostic.ofCode .e0002).atLine 2) := by
  intro h
  exact absurd (h.of_repeated (by decide)) (by unfold Keeps; decide)

end Docket

end LoxFront
