import LoxFront.Proofs.Lines
import LoxFront.Proofs.Tiling

/-! Bulk moves stop at the greatest line; a single step over a newline starts again at 0 there.
Among lexemes only a newline is taken by such a step. -/
namespace LoxFront
open Text Lexical

namespace Cursor

def lastLine : UInt32 := 0xFFFFFFFF

theorem toNat_lastLine : lastLine.toNat = UInt32.size - 1 := rfl

theorem toNat_lineAfter_eq (line : UInt32) (n : Nat) :
    (lineAfter line n).toNat = min (line.toNat + n) (UInt32.size - 1) := by
  have hsize : UInt32.size = 4294967296 := rfl
  apply UInt32.toNat_ofNat_of_lt
  omega

theorem lineAfter_zero (line : UInt32) : lineAfter line 0 = line := by
  have hlt := line.toNat_lt_size
  apply UInt32.toNat_inj.mp
  rw [toNat_lineAfter_eq]
  omega

theorem lineAfter_lineAfter (line : UInt32) (m n : Nat) :
    lineAfter (lineAfter line m) n = lineAfter line (m + n) := by
  apply UInt32.toNat_inj.mp
  rw [toNat_lineAfter_eq, toNat_lineAfter_eq, toNat_lineAfter_eq]
  omega

theorem le_lineAfter (line : UInt32) (n : Nat) : line ≤ lineAfter line n := by
  have hlt := line.toNat_lt_size
  rw [UInt32.le_iff_toNat_le, toNat_lineAfter_eq]
  omega

/-- `d` is `c` moved over some bytes, with the line raised by their newlines up to the limit. -/
def Raises (c d : Cursor) : Prop :=
  ∃ skipped, c.rest = skipped ++ d.rest ∧ d.line = lineAfter c.line (skipped.count Byte.newline)

theorem Raises.refl (c : Cursor) : c.Raises c :=
  ⟨[], rfl, (lineAfter_zero c.line).symm⟩

theorem Raises.trans {c d e : Cursor} (h : c.Raises d) (h' : d.Raises e) : c.Raises e := by
  obtain ⟨xs, hx, hd⟩ := h
  obtain ⟨ys, hy, he⟩ := h'
  refine ⟨xs ++ ys, ?_, ?_⟩
  · rw [hx, hy, List.append_assoc]
  · rw [he, hd, lineAfter_lineAfter, List.count_append]

theorem raises_of_not_mem {c d : Cursor} {skipped : List UInt8} (hr : c.rest = skipped ++ d.rest)
    (hn : Byte.newline ∉ skipped) (hl : d.line = c.line) : c.Raises d := by
  refine ⟨skipped, hr, ?_⟩
  rw [List.count_eq_zero_of_not_mem hn, lineAfter_zero, hl]

theorem raises_advance {c : Cursor} (h : c.rest.head? ≠ some Byte.newline) : c.Raises c.advance := by
  have hl : c.advance.line = c.line := if_neg h
  refine raises_of_not_mem (List.take_append_drop 1 c.rest).symm ?_ hl
  intro hm
  cases hr : c.rest with
  | nil => simp [hr] at hm
  | cons b r =>
    rw [hr, List.take_succ_cons, List.take_zero, List.mem_singleton] at hm
    exact h (by rw [hr, ← hm]; rfl)

theorem raises_pass (c : Cursor) (n : Nat) : c.Raises (c.pass n) :=
  ⟨c.rest.take n, (List.take_append_drop n c.rest).symm, rfl⟩

theorem raises_skipWhile (c : Cursor) {p : UInt8 → Bool} (hp : p Byte.newline = false) :
    c.Raises (c.skipWhile p) := by
  have ht := (passed_skipWhile (c := c) hp).rest
  refine raises_of_not_mem ht ?_ rfl
  intro hm
  have hb := List.mem_takeWhile_imp hm
  rw [hp] at hb
  exact Bool.false_ne_true hb

theorem raises_eat? {c d : Cursor} {b : UInt8} (hb : b ≠ Byte.newline) (h : c.eat? b = some d) :
    c.Raises d := by
  rw [eat?_eq_some h]
  unfold eat? at h
  split_ifs at h with hc
  apply raises_advance
  rw [hc]
  exact fun he => hb (Option.some.inj he)

/-! ## Lexemes -/

theorem raises_finishNumber (c : Cursor) : c.Raises c.finishNumber := by
  have hw := raises_skipWhile c (p := Byte.isDigit) (by decide)
  unfold finishNumber
  simp only
  split_ifs with hf
  · -- The byte that is stepped over is a dot.
    have hdot : (c.skipWhile Byte.isDigit).rest.head? ≠ some Byte.newline := by
      have hc := hf.1
      unfold current at hc
      intro hn
      rw [List.headD_eq_head?_getD, hn] at hc
      exact absurd hc (by decide)
    exact (hw.trans (raises_advance hdot)).trans (raises_skipWhile _ (by decide))
  · exact hw

theorem head?_seek {c : Cursor} {b : UInt8} (h : (c.seek b).1 = true) :
    (c.seek b).2.rest.head? = some b := by
  obtain ⟨pre, post, hr, hp⟩ := List.eq_append_cons_of_mem (List.contains_iff_mem.mp h)
  change (c.rest.drop (c.rest.takeWhile (· != b)).length).head? = some b
  rw [hr, Runs.takeWhile_bne_append hp, List.drop_left]
  rfl

theorem raises_finishString (c : Cursor) : c.Raises c.finishString.2 := by
  have hs : c.Raises (c.seek Byte.quote).2 := raises_pass c _
  have hq := head?_seek (c := c) (b := Byte.quote)
  unfold finishString
  generalize c.seek Byte.quote = s at hs hq ⊢
  obtain ⟨found, d⟩ := s
  cases found with
  | true =>
    apply hs.trans
    apply raises_advance
    rw [hq rfl]
    decide
  | false => exact hs

theorem rest_seekPair {c d : Cursor} {a b : UInt8} (h : c.seekPair a b = (true, d)) :
    ∃ post, d.rest = a :: b :: post := by
  unfold seekPair at h
  cases hp : pairIdx? a b 0 c.rest with
  | none =>
    rw [hp] at h
    cases h
  | some n =>
    rw [hp] at h
    obtain rfl := (Prod.mk.inj h).2
    obtain ⟨pre, post, hr, hn, -⟩ := pairIdx?_eq_some hp
    refine ⟨post, ?_⟩
    rw [rest_pass, hr, hn, Nat.zero_add, List.drop_left]

theorem raises_seekPair (c : Cursor) (a b : UInt8) : c.Raises (c.seekPair a b).2 := by
  unfold seekPair
  cases pairIdx? a b 0 c.rest with
  | some n => exact raises_pass c n
  | none => exact raises_pass c _

theorem raises_finishBlock (c : Cursor) : c.Raises c.finishBlock.2 := by
  have hs := raises_seekPair c Byte.star Byte.slash
  have hr (d : Cursor) (h : c.seekPair Byte.star Byte.slash = (true, d)) := rest_seekPair h
  unfold finishBlock
  generalize c.seekPair Byte.star Byte.slash = s at hs hr ⊢
  obtain ⟨found, d⟩ := s
  cases found with
  | true =>
    obtain ⟨post, hd⟩ := hr d rfl
    have h1 : d.Raises d.advance := by
      apply raises_advance
      rw [hd]
      exact fun he => absurd (Option.some.inj he) (by decide)
    have h2 : d.advance.Raises d.advance.advance := by
      apply raises_advance
      rw [rest_advance, hd]
      exact fun he => absurd (Option.some.inj he) (by decide)
    exact (hs.trans h1).trans h2
  | false =>
    simp only
    split_ifs
    · exact hs
    · exact hs

theorem raises_finishSlash (c : Cursor) : c.Raises c.finishSlash.2 := by
  unfold finishSlash
  cases hs : c.eat? Byte.slash with
  | some d => exact (raises_eat? (by decide) hs).trans (raises_skipWhile d (by decide))
  | none =>
    cases ht : c.eat? Byte.star with
    | some d => exact (raises_eat? (by decide) ht).trans (raises_finishBlock d)
    | none => exact Raises.refl c

theorem raises_finishPaired (c : Cursor) (plain withEquals : Operator) :
    c.Raises (c.finishPaired plain withEquals).2 := by
  unfold finishPaired
  cases h : c.eat? Byte.equals with
  | some d => exact raises_eat? (by decide) h
  | none => exact Raises.refl c

/-- Only on a text: the bytes behind the first one of a character are none of them newlines. -/
theorem raises_advanceChar {c : Cursor} {cs : List Char} (h : c.rest = encode cs)
    (hc : c.rest.head? ≠ some Byte.newline) : c.Raises c.advanceChar := by
  cases cs with
  | nil =>
    have hr : c.rest = [] := h
    have hcur : c.current ≠ Byte.newline := by
      rw [current, hr]
      decide
    rw [advanceChar, if_neg hcur]
    refine ⟨[], ?_, (lineAfter_zero c.line).symm⟩
    rw [rest_forward, hr, List.drop_nil, List.nil_append]
  | cons x cs =>
    have hx : x ≠ '\n' := by
      rintro rfl
      apply hc
      rw [h, encode_cons]
      rfl
    have hcur : c.current ≠ Byte.newline := by
      rw [current, h, encode_cons, List.headD_cons]
      exact fun he => hx ((lead_eq_lead_iff (d := '\n') (by decide)).mp he)
    have hp := advanceChar_text hx h
    have hl : c.advanceChar.line = c.line := by
      rw [advanceChar, if_neg hcur]
      rfl
    refine raises_of_not_mem hp.rest ?_ hl
    intro hm
    have hm' := (lead_mem_encode_iff (d := '\n') (by decide)).mp hm
    exact hx (List.mem_singleton.mp hm').symm

theorem raises_scan {c : Cursor} {cs : List Char} (h : c.rest = encode cs)
    (ht : c.scan.1 ≠ .newline) : c.Raises c.scan.2 := by
  have hchar := raises_advanceChar h
  have hadvance := raises_advance (c := c)
  unfold scan at ht ⊢
  cases hr : c.rest with
  | nil => exact Raises.refl c
  | cons b r =>
    simp only [hr] at ht ⊢
    by_cases hn : b = Byte.newline
    · -- A newline is no blank, so its tag would be that of a newline.
      subst hn
      exact absurd rfl ht
    · have hhead : c.rest.head? ≠ some Byte.newline := by
        rw [hr]
        exact fun he => hn (Option.some.inj he)
      have ha := hadvance hhead
      rw [if_neg hn]
      split_ifs
      · exact ha.trans (raises_skipWhile _ (by decide))
      · exact ha.trans (raises_skipWhile _ (by decide))
      · exact ha.trans (raises_finishNumber _)
      · exact ha.trans (raises_finishString _)
      · exact ha.trans (raises_finishSlash _)
      · split
        · exact ha
        · exact ha.trans (raises_finishPaired _ _ _)
        · exact hchar hhead

theorem scan_newline {c : Cursor} {r : List UInt8} (h : c.rest = Byte.newline :: r) :
    c.scan = (.newline, c.advance) := by
  unfold scan
  rw [h]
  rfl

theorem line_advance_newline {c : Cursor} {r : List UInt8} (h : c.rest = Byte.newline :: r) :
    c.advance.line = c.line + 1 := by
  apply if_pos
  rw [h]
  rfl

theorem line_next {source before piece after : String} {c : Cursor}
    (h : Meets source c before piece after) :
    c.next.1.line =
      if c.next.1.tag = .newline then c.line + 1
      else lineAfter c.line (c.next.1.bytes.count Byte.newline) := by
  have hrest := h.rest_eq
  rw [bytes_eq_encode] at hrest
  split_ifs with ht
  · -- A newline is taken by a single step.
    have hs := h.spells (by rw [ht]; exact Tag.noConfusion)
    rw [ht] at hs
    have hpiece : piece.toList = ['\n'] := hs
    rw [String.toList_append, hpiece, encode_append] at hrest
    have hr : c.rest = Byte.newline :: encode after.toList := hrest
    change c.scan.2.line = c.line + 1
    rw [scan_newline hr]
    exact line_advance_newline hr
  · obtain ⟨skipped, hr, hl⟩ := raises_scan hrest ht
    have hbytes : skipped = c.next.1.bytes :=
      List.append_cancel_right (hr.symm.trans (next_covers c).1)
    rw [← hbytes]
    exact hl

def WrapsAt (c : Cursor) : Prop :=
  c.next.1.tag = .newline ∧ c.line = lastLine

theorem line_next_of_wrapsAt {source before piece after : String} {c : Cursor}
    (h : Meets source c before piece after) (hw : c.WrapsAt) : c.next.1.line = 0 := by
  rw [line_next h, if_pos hw.1, hw.2]
  rfl

theorem line_le_next {source before piece after : String} {c : Cursor}
    (h : Meets source c before piece after) (hw : ¬ c.WrapsAt) : c.line ≤ c.next.1.line := by
  rw [line_next h]
  split_ifs with ht
  · have hne : c.line.toNat ≠ UInt32.size - 1 := by
      intro he
      exact hw ⟨ht, UInt32.toNat_inj.mp (he.trans toNat_lastLine.symm)⟩
    have hlt := c.line.toNat_lt_size
    have hsize : UInt32.size = 4294967296 := rfl
    have hsum : (c.line + 1).toNat = (c.line.toNat + 1) % UInt32.size := UInt32.toNat_add _ _
    rw [UInt32.le_iff_toNat_le, hsum, Nat.mod_eq_of_lt (by omega)]
    omega
  · exact le_lineAfter _ _

section Order
variable {source before rest : String} {c : Cursor}

theorem line_le_of_mem_visits (hs : source = before ++ rest)
    (hp : (ofText source).Passed (bytes before) c) (hw : ∀ d ∈ c.visits, ¬ d.WrapsAt) {d : Cursor}
    (hd : d ∈ c.visits) : c.line ≤ d.line ∧ d.line ≤ d.next.1.line := by
  fun_induction visits c generalizing before rest with
  | case1 c h =>
    obtain rfl := List.mem_singleton.mp hd
    obtain ⟨piece, after, -, hm⟩ := exists_meets hs hp
    exact ⟨UInt32.le_refl _, line_le_next hm (hw d hd)⟩
  | case2 c h ih =>
    obtain ⟨piece, after, -, hm⟩ := exists_meets hs hp
    have hle := line_le_next hm (hw c List.mem_cons_self)
    rcases List.mem_cons.mp hd with rfl | hd
    · exact ⟨UInt32.le_refl _, hle⟩
    · -- The next cursor stands on the line behind this lexeme.
      have hi := ih hm.source_eq hm.behind (List.forall_mem_cons.mp hw).2 hd
      exact ⟨UInt32.le_trans hle hi.1, hi.2⟩

theorem visits_lines_pairwise (hs : source = before ++ rest)
    (hp : (ofText source).Passed (bytes before) c) (hw : ∀ d ∈ c.visits, ¬ d.WrapsAt) :
    c.visits.Pairwise fun d e => d.next.1.line ≤ e.next.1.line := by
  fun_induction visits c generalizing before rest with
  | case1 c h => exact List.pairwise_singleton _ _
  | case2 c h ih =>
    obtain ⟨piece, after, -, hm⟩ := exists_meets hs hp
    have hw' := (List.forall_mem_cons.mp hw).2
    apply List.pairwise_cons.mpr
    refine ⟨?_, ih hm.source_eq hm.behind hw'⟩
    intro e he
    have hle := line_le_of_mem_visits hm.source_eq hm.behind hw' he
    exact UInt32.le_trans hle.1 hle.2

end Order

end Cursor

/-! ## All lines of a source -/

/-- A newline of the source is met on the greatest line. -/
def Wraps (source : String) : Prop :=
  ∃ c ∈ (Cursor.ofText source).visits, c.WrapsAt

/-- Lines that never decrease and are never 0. -/
def Steady (lines : List UInt32) : Prop :=
  lines.Pairwise (· ≤ ·) ∧ ∀ line ∈ lines, line ≠ 0

theorem Steady.sublist {lines some : List UInt32} (h : Steady lines) (hs : some.Sublist lines) :
    Steady some :=
  ⟨h.1.sublist hs, fun line hl => h.2 line (hs.subset hl)⟩

theorem lexeme_lines (source : String) :
    (Cursor.ofText source).lexemes.map Lexeme.line =
      (Cursor.ofText source).visits.map fun c => c.next.1.line := by
  rw [Cursor.lexemes_eq_map_visits, List.map_map]
  rfl

theorem line_of_token? {l : Lexeme} {t : Token} (h : l.yield.token? = some t) : t.line = l.line := by
  unfold Lexeme.yield at h
  split at h
  all_goals first
    | (obtain rfl := Option.some.inj h; rfl)
    | cases h

theorem token_lines_sublist (source : String) :
    ((lex source).tokens.map Token.line).Sublist
      ((Cursor.ofText source).lexemes.map Lexeme.line) := by
  rw [lexeme_lines, tokens_eq]
  generalize (Cursor.ofText source).visits = visits
  induction visits with
  | nil => exact List.Sublist.slnil
  | cons c visits ih =>
    rw [filterMap_cons_toList, List.map_append, List.map_cons]
    cases ht : c.next.1.yield.token? with
    | none => exact ih.cons _
    | some t =>
      rw [Option.toList_some, List.map_singleton, line_of_token? ht]
      exact ih.cons_cons _

theorem steady_lexemes {source : String} (h : ¬ Wraps source) :
    Steady ((Cursor.ofText source).lexemes.map Lexeme.line) := by
  have hw : ∀ c ∈ (Cursor.ofText source).visits, ¬ c.WrapsAt := by
    intro c hc hwc
    exact h ⟨c, hc, hwc⟩
  obtain ⟨hs, hp⟩ := Cursor.passed_ofText source
  rw [lexeme_lines]
  refine ⟨List.pairwise_map.mpr (Cursor.visits_lines_pairwise hs hp hw), ?_⟩
  intro line hl
  obtain ⟨c, hc, rfl⟩ := List.mem_map.mp hl
  obtain ⟨h1, h2⟩ := Cursor.line_le_of_mem_visits hs hp hw hc
  have hone : 1 ≤ c.next.1.line := UInt32.le_trans h1 h2
  rw [UInt32.le_iff_toNat_le] at hone
  rintro h0
  rw [h0] at hone
  exact absurd hone (by decide)

/-- It takes more newlines than a word can count for a source to come to the greatest line and go
on. -/
theorem Wraps.le_count {source : String} (h : Wraps source) :
    UInt32.size - 1 ≤ (bytes source).count Byte.newline := by
  obtain ⟨c, hc, hw⟩ := h
  obtain ⟨before, piece, after, hm⟩ := Cursor.exists_meets_of_mem hc
  by_contra hlt
  have hsize : UInt32.size = 4294967296 := rfl
  have hline := hm.line_eq (by omega)
  have hzero : c.next.2.line = 0 := Cursor.line_next_of_wrapsAt hm hw
  rw [hzero] at hline
  have h0 : (0 : UInt32).toNat = 0 := rfl
  omega

/-! ## A source of newlines -/

namespace Cursor

theorem next_newline {c : Cursor} {r : List UInt8} (h : c.rest = Byte.newline :: r) :
    c.next = (⟨.newline, [Byte.newline], c.line + 1⟩, c.advance) := by
  have hlen : c.advance.pos - c.pos = 1 := by
    rw [(passed_advance h).pos, Nat.add_sub_cancel_left]
    rfl
  simp only [next, scan_newline h, hlen, line_advance_newline h, h, List.take_succ_cons,
    List.take_zero]

theorem tokens_newlines {c : Cursor} {n : Nat} (h : c.rest = List.replicate n Byte.newline) :
    c.visits.filterMap (fun d => d.next.1.yield.token?) =
      [Token.eof (c.line + UInt32.ofNat n)] := by
  induction n generalizing c with
  | zero =>
    have hnil : c.rest = [] := h
    rw [visits, if_pos hnil, filterMap_cons_toList, next_of_rest_nil hnil]
    simp [Lexeme.yield, Yield.token?]
  | succ n ih =>
    rw [List.replicate_succ] at h
    have hne : c.rest ≠ [] := by
      rw [h]
      exact List.cons_ne_nil _ _
    have hnext := next_newline h
    have hrest : c.advance.rest = List.replicate n Byte.newline := (passed_advance h).rest_eq h
    have hsum : c.line + 1 + UInt32.ofNat n = c.line + UInt32.ofNat (n + 1) := by
      rw [UInt32.add_assoc, UInt32.add_comm 1, UInt32.ofNat_add]
      rfl
    rw [visits, if_neg hne, filterMap_cons_toList, hnext, ih hrest, line_advance_newline h, hsum]
    rfl

end Cursor

theorem encode_newlines (n : Nat) :
    encode (List.replicate n '\n') = List.replicate n Byte.newline := by
  induction n with
  | zero => rfl
  | succ n ih =>
    rw [List.replicate_succ, encode_cons, ih, List.replicate_succ]
    rfl

/-- A letter on the first line, and then newlines: the end of input is on the line that their number
leads to in the arithmetic of the word. -/
theorem lines_letter_newlines (n : Nat) :
    (lex (String.ofList ('a' :: List.replicate n '\n'))).tokens.map Token.line =
      [1, 1 + UInt32.ofNat n] := by
  rw [tokens_eq]
  generalize hc : Cursor.ofText (String.ofList ('a' :: List.replicate n '\n')) = c
  have hline : c.line = 1 := by
    rw [← hc]
    rfl
  have hrest : c.rest = 97 :: List.replicate n Byte.newline := by
    rw [← hc]
    change bytes _ = _
    rw [bytes_ofList, encode_cons, encode_newlines]
    rfl
  have hne : c.rest ≠ [] := by
    rw [hrest]
    exact List.cons_ne_nil _ _
  have hscan : c.scan = (.ident, c.advance.skipWhile Byte.isWord) := by
    unfold Cursor.scan
    rw [hrest]
    rfl
  have hbehind : (c.advance.skipWhile Byte.isWord).rest = List.replicate n Byte.newline := by
    have hrun : (List.replicate n Byte.newline).takeWhile Byte.isWord = [] := by
      rw [List.takeWhile_replicate]
      rfl
    have hadvance : c.advance.rest = List.replicate n Byte.newline := by
      rw [Cursor.rest_advance, hrest]
      rfl
    rw [Cursor.skipWhile, Cursor.rest_forward, hadvance, hrun]
    rfl
  have hsame : (c.advance.skipWhile Byte.isWord).line = 1 := by
    rw [← hline]
    apply if_neg
    rw [hrest]
    exact fun he => absurd (Option.some.inj he) (by decide)
  have htoken : (c.next.1.yield.token?).toList.map Token.line = [1] := by
    rw [Cursor.next, hscan]
    exact congrArg (fun line => [line]) hsame
  have hnext : c.next.2 = c.advance.skipWhile Byte.isWord := congrArg Prod.snd hscan
  rw [Cursor.visits, if_neg hne, filterMap_cons_toList, List.map_append, htoken, hnext,
    Cursor.tokens_newlines hbehind, hsame]
  rfl

/-- Behind a newline the line is one greater in the arithmetic of the word; behind every other
lexeme it stops at the greatest line. So lines fall only if a newline is met on the greatest line,
and it takes 2^32 - 1 newlines to come there. -/
theorem lines_steady_iff (source : String) :
    (∀ c ∈ (Cursor.ofText source).visits, c.next.1.line =
      if c.next.1.tag = .newline then c.line + 1
      else Cursor.lineAfter c.line (c.next.1.bytes.count Byte.newline)) ∧
    (Steady ((Cursor.ofText source).lexemes.map Lexeme.line) ↔ ¬ Wraps source) ∧
    (¬ Wraps source → Steady ((lex source).tokens.map Token.line)) ∧
    (Wraps source → UInt32.size - 1 ≤ (bytes source).count Byte.newline) := by
  refine ⟨?_, ?_, ?_, Wraps.le_count⟩
  · intro c hc
    obtain ⟨before, piece, after, hm⟩ := Cursor.exists_meets_of_mem hc
    exact Cursor.line_next hm
  · refine ⟨?_, steady_lexemes⟩
    rintro h ⟨c, hc, hw⟩
    obtain ⟨before, piece, after, hm⟩ := Cursor.exists_meets_of_mem hc
    have hmem : c.next.1.line ∈ (Cursor.ofText source).lexemes.map Lexeme.line := by
      rw [lexeme_lines]
      exact List.mem_map.mpr ⟨c, hc, rfl⟩
    exact h.2 _ hmem (Cursor.line_next_of_wrapsAt hm hw)
  · intro h
    exact (steady_lexemes h).sublist (token_lines_sublist source)

/-- Behind 2^32 - 1 newlines the end of input is on line 0, although a letter stands on line 1. -/
theorem not_steady_newlines :
    ¬ Steady
      ((lex (String.ofList ('a' :: List.replicate 4294967295 '\n'))).tokens.map Token.line) := by
  rw [lines_letter_newlines]
  rintro ⟨-, h⟩
  exact h 0 (by decide) rfl

end LoxFront
