import LoxFront.Proofs.Runs
import LoxFront.Proofs.Utf8
import LoxFront.Source.Cursor

namespace LoxFront.Cursor
open Text Runs

/-- `d` is `c` moved over `skipped`, with the line moved down by the newlines among these bytes. -/
structure Passed (c : Cursor) (skipped : List UInt8) (d : Cursor) : Prop where
  rest : c.rest = skipped ++ d.rest
  pos : d.pos = c.pos + skipped.length
  line : c.line.toNat + skipped.count Byte.newline < UInt32.size →
    d.line.toNat = c.line.toNat + skipped.count Byte.newline

theorem Passed.refl (c : Cursor) : c.Passed [] c :=
  ⟨rfl, rfl, fun _ => rfl⟩

theorem Passed.trans {c d e : Cursor} {xs ys : List UInt8} (h : c.Passed xs d)
    (h' : d.Passed ys e) : c.Passed (xs ++ ys) e := by
  refine ⟨?_, ?_, ?_⟩
  · rw [h.rest, h'.rest, List.append_assoc]
  · rw [h'.pos, h.pos, List.length_append, Nat.add_assoc]
  · intro hl
    rw [List.count_append] at hl ⊢
    have hd : d.line.toNat = c.line.toNat + xs.count Byte.newline := h.line (by omega)
    calc
      e.line.toNat = d.line.toNat + ys.count Byte.newline := h'.line (by omega)
      _ = c.line.toNat + xs.count Byte.newline + ys.count Byte.newline := by rw [hd]
      _ = _ := Nat.add_assoc _ _ _

theorem Passed.rest_eq {c d : Cursor} {xs ys : List UInt8} (h : c.Passed xs d)
    (hc : c.rest = xs ++ ys) : d.rest = ys :=
  List.append_cancel_left (h.rest.symm.trans hc)

theorem passed_forward {c : Cursor} {n : Nat} (h : Byte.newline ∉ c.rest.take n) :
    c.Passed (c.rest.take n) (c.forward n) := by
  refine ⟨(List.take_append_drop n c.rest).symm, rfl, ?_⟩
  intro _
  rw [List.count_eq_zero_of_not_mem h, Nat.add_zero]
  rfl

theorem passed_advance {c : Cursor} {b : UInt8} {r : List UInt8} (h : c.rest = b :: r) :
    c.Passed [b] c.advance := by
  refine ⟨?_, ?_, ?_⟩
  · rw [rest_advance, h]
    rfl
  · simp only [advance, forward, h]
    rfl
  · intro hl
    by_cases hb : b = Byte.newline
    · subst hb
      have hsum : (c.line + 1).toNat = (c.line.toNat + 1) % UInt32.size := UInt32.toNat_add _ _
      simp only [advance, h, List.head?_cons, if_pos, List.count_singleton_self] at hl ⊢
      rw [hsum, Nat.mod_eq_of_lt hl]
    · have hne : ¬ some b = some Byte.newline := fun he => hb (Option.some.inj he)
      simp only [advance, h, List.head?_cons, if_neg hne]
      rw [List.count_eq_zero_of_not_mem (by simpa using Ne.symm hb), Nat.add_zero]

theorem toNat_lineAfter {line : UInt32} {n : Nat} (h : line.toNat + n < UInt32.size) :
    (lineAfter line n).toNat = line.toNat + n := by
  have hmin : min (line.toNat + n) (UInt32.size - 1) = line.toNat + n := by omega
  rw [lineAfter, hmin]
  exact UInt32.toNat_ofNat_of_lt h

theorem passed_pass (c : Cursor) (n : Nat) : c.Passed (c.rest.take n) (c.pass n) :=
  ⟨(List.take_append_drop n c.rest).symm, rfl, fun hl => toNat_lineAfter hl⟩

theorem take_length_takeWhile (p : UInt8 → Bool) (xs : List UInt8) :
    xs.take (xs.takeWhile p).length = xs.takeWhile p := by
  have hstart : xs.takeWhile p <+: xs := List.takeWhile_prefix p
  exact (List.prefix_iff_eq_take.mp hstart).symm

theorem passed_skipWhile {c : Cursor} {p : UInt8 → Bool} (hp : p Byte.newline = false) :
    c.Passed (c.rest.takeWhile p) (c.skipWhile p) := by
  -- A class without the newline is passed without counting.
  have ht := take_length_takeWhile p c.rest
  have hn : Byte.newline ∉ c.rest.take (c.rest.takeWhile p).length := by
    rw [ht]
    intro hm
    have hb := List.mem_takeWhile_imp hm
    rw [hp] at hb
    exact Bool.false_ne_true hb
  have h := passed_forward hn
  rw [ht] at h
  exact h

section Text
variable {c : Cursor} {cs : List Char}

theorem advance_text {x : Char} (hx : x.toNat < 128) (h : c.rest = encode (x :: cs)) :
    c.Passed (encode [x]) c.advance ∧ c.advance.rest = encode cs := by
  have hs : encode [x] = [lead x] := by
    rw [encode_cons, trail_of_ascii hx, encode_nil, List.append_nil]
  rw [encode_cons, trail_of_ascii hx, List.nil_append] at h
  have hp := passed_advance h
  exact ⟨hs ▸ hp, hp.rest_eq h⟩

theorem passed_cons {d : Cursor} {x : Char} {word : List Char}
    (hx : c.Passed (encode [x]) c.advance) (hw : c.advance.Passed (encode word) d) :
    c.Passed (encode (x :: word)) d := by
  have h := hx.trans hw
  rw [← encode_append] at h
  exact h

theorem skipWhile_text {p : UInt8 → Bool} {q : Char → Bool} (hp : Coarse p)
    (hn : p Byte.newline = false) (hq : ∀ x, p (lead x) = q x) (h : c.rest = encode cs) :
    c.Passed (encode (cs.takeWhile q)) (c.skipWhile p) ∧
      (c.skipWhile p).rest = encode (cs.dropWhile q) := by
  have ht : c.rest.takeWhile p = encode (cs.takeWhile q) := by
    rw [h, takeWhile_encode hp, funext hq]
  have hm := passed_skipWhile (c := c) hn
  rw [ht] at hm
  refine ⟨hm, hm.rest_eq ?_⟩
  rw [h, ← encode_append, List.takeWhile_append_dropWhile]

theorem advanceChar_text {x : Char} (hx : x ≠ '\n') (h : c.rest = encode (x :: cs)) :
    c.Passed (encode [x]) c.advanceChar := by
  have hcur : c.current = lead x := by
    rw [current, h, encode_cons, List.headD_cons]
  have hne : ¬ c.current = Byte.newline := by
    rw [hcur]
    exact fun he => hx ((lead_eq_lead_iff (d := '\n') (by decide)).mp he)
  have ht : c.rest.take (Byte.width c.current) = encode [x] := by
    rw [hcur, h, width_lead, encode_cons, encode_cons, encode_nil, List.append_nil,
      List.take_succ_cons, List.take_left]
  rw [advanceChar, if_neg hne]
  have hf : Byte.newline ∉ c.rest.take (Byte.width c.current) := by
    rw [ht]
    intro hm
    have hm' := (lead_mem_encode_iff (d := '\n') (by decide)).mp hm
    exact hx (List.mem_singleton.mp hm').symm
  have hp := passed_forward hf
  rwa [ht] at hp

theorem passed_seek_text {d : Char} (hd : d.toNat < 128) (h : c.rest = encode cs) :
    c.Passed (encode (cs.takeWhile (· != d))) (c.seek (lead d)).2 := by
  have hlow : lead d < 128 := by
    rw [UInt8.lt_iff_toNat_lt, toNat_lead_of_ascii hd]
    exact hd
  have hclass (x : Char) : (lead x != lead d) = (x != d) := by
    rw [Bool.eq_iff_iff, bne_iff_ne, bne_iff_ne, ne_eq, ne_eq, lead_eq_lead_iff hd]
  have hrun : c.rest.takeWhile (· != lead d) = encode (cs.takeWhile (· != d)) := by
    rw [h, takeWhile_encode (coarse_ne hlow)]
    simp only [hclass]
  have hm := passed_pass c (c.rest.takeWhile (· != lead d)).length
  rw [take_length_takeWhile, hrun] at hm
  unfold seek
  rw [hrun]
  exact hm

theorem seek_found {d : Char} (hd : d.toNat < 128) {body r : List Char} (hb : d ∉ body)
    (h : c.rest = encode (body ++ d :: r)) :
    ∃ e, c.seek (lead d) = (true, e) ∧ c.Passed (encode body) e ∧ e.rest = encode (d :: r) := by
  have hm := passed_seek_text hd h
  rw [takeWhile_bne_append hb] at hm
  refine ⟨(c.seek (lead d)).2, Prod.ext ?_ rfl, hm, hm.rest_eq ?_⟩
  · simp only [seek, h, List.contains_iff_mem]
    exact (lead_mem_encode_iff hd).mpr (List.mem_append_right _ List.mem_cons_self)
  · rw [h, encode_append]

theorem seek_missing {d : Char} (hd : d.toNat < 128) (hb : d ∉ cs) (h : c.rest = encode cs) :
    ∃ e, c.seek (lead d) = (false, e) ∧ c.Passed (encode cs) e := by
  have hm := passed_seek_text hd h
  rw [takeWhile_bne_self hb] at hm
  refine ⟨(c.seek (lead d)).2, Prod.ext ?_ rfl, hm⟩
  simp only [seek, h]
  rw [← Bool.not_eq_true, List.contains_iff_mem]
  exact fun hc => hb ((lead_mem_encode_iff hd).mp hc)

end Text

theorem pairIdx?_eq_some {a b : UInt8} {k n : Nat} {l : List UInt8}
    (h : pairIdx? a b k l = some n) :
    ∃ pre post, l = pre ++ a :: b :: post ∧ n = k + pre.length ∧
      ∀ pre' post', l = pre' ++ a :: b :: post' → pre.length ≤ pre'.length := by
  fun_induction pairIdx? a b k l with
  | case1 k x y rest hxy =>
    obtain ⟨rfl, rfl⟩ := hxy
    exact ⟨[], rest, rfl, (Option.some.inj h).symm, fun _ _ _ => Nat.zero_le _⟩
  | case2 k x y rest hxy ih =>
    obtain ⟨pre, post, he, hn, hfirst⟩ := ih h
    refine ⟨x :: pre, post, by rw [he, List.cons_append], ?_, ?_⟩
    · rw [hn, List.length_cons]
      omega
    · intro pre' post' he'
      cases pre' with
      | nil =>
        obtain ⟨rfl, ht⟩ := List.cons.inj he'
        exact absurd ⟨rfl, (List.cons.inj ht).1⟩ hxy
      | cons z pre' =>
        have hle := hfirst pre' post' (List.cons.inj he').2
        exact Nat.succ_le_succ hle
  | case3 k l hl => cases h

theorem pairIdx?_eq_none {a b : UInt8} {k : Nat} {l : List UInt8} (h : pairIdx? a b k l = none)
    (pre post : List UInt8) : l ≠ pre ++ a :: b :: post := by
  fun_induction pairIdx? a b k l generalizing pre with
  | case1 k x y rest hxy => cases h
  | case2 k x y rest hxy ih =>
    intro he
    cases pre with
    | nil =>
      obtain ⟨rfl, ht⟩ := List.cons.inj he
      exact hxy ⟨rfl, (List.cons.inj ht).1⟩
    | cons z pre => exact ih h pre (List.cons.inj he).2
  | case3 k l hl =>
    rintro rfl
    cases pre with
    | nil => exact hl a b post rfl
    | cons z pre =>
      cases pre with
      | nil => exact hl z a (b :: post) rfl
      | cons w pre => exact hl z w (pre ++ a :: b :: post) rfl

end LoxFront.Cursor
