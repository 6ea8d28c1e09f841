import LoxFront.Source.Byte
import LoxFront.Text.Utf8
import Mathlib.Tactic.Common

/-! A character is one ASCII byte, or a lead byte from 192 on that tells how many continuation bytes
below 192 follow it. -/
namespace LoxFront.Text

def encode (cs : List Char) : List UInt8 :=
  cs.flatMap String.utf8EncodeChar

def lead (c : Char) : UInt8 :=
  (String.utf8EncodeChar c).headD 0

def trail (c : Char) : List UInt8 :=
  (String.utf8EncodeChar c).tail

theorem utf8EncodeChar_eq_cons (c : Char) : String.utf8EncodeChar c = lead c :: trail c := by
  unfold lead trail
  cases h : String.utf8EncodeChar c with
  | nil => exact absurd h String.utf8EncodeChar_ne_nil
  | cons b bs => rfl

theorem encode_nil : encode [] = [] := rfl

theorem encode_cons (c : Char) (cs : List Char) :
    encode (c :: cs) = lead c :: (trail c ++ encode cs) := by
  rw [encode, List.flatMap_cons, utf8EncodeChar_eq_cons]
  rfl

theorem encode_append (cs ds : List Char) : encode (cs ++ ds) = encode cs ++ encode ds :=
  List.flatMap_append

theorem encode_singleton (c : Char) : encode [c] = String.utf8EncodeChar c := by
  rw [encode, List.flatMap_singleton]

theorem bytes_eq_encode (text : String) : bytes text = encode text.toList := rfl

theorem bytes_ofList (cs : List Char) : bytes (String.ofList cs) = encode cs := by
  rw [bytes_eq_encode, String.toList_ofList]

theorem ofBytes_encode (cs : List Char) : ofBytes (encode cs) = String.ofList cs := by
  rw [← bytes_ofList, ofBytes_bytes]

theorem encode_injective : Function.Injective encode := by
  intro cs ds h
  have hs : String.ofList cs = String.ofList ds := by
    rw [← ofBytes_encode, ← ofBytes_encode, h]
  rw [← String.toList_ofList (l := cs), hs, String.toList_ofList]

theorem encode_eq_nil {cs : List Char} (h : encode cs = []) : cs = [] :=
  encode_injective (h.trans encode_nil.symm)

theorem toNat_ofNat_of_lt {n : Nat} (h : n < 256) : (UInt8.ofNat n).toNat = n := by
  rw [UInt8.toNat_ofNat']
  exact Nat.mod_eq_of_lt h

theorem continuation_bounds (n : Nat) :
    128 ≤ UInt8.ofNat (n % 64 + 128) ∧ UInt8.ofNat (n % 64 + 128) < 192 := by
  have hn := toNat_ofNat_of_lt (n := n % 64 + 128) (by omega)
  rw [UInt8.le_iff_toNat_le, UInt8.lt_iff_toNat_lt, hn]
  exact ⟨Nat.le_add_left _ _, (by omega : n % 64 + 128 < 192)⟩

theorem width_of_toNat {b : UInt8} {n : Nat} (h : b.toNat = n) :
    Byte.width b = if 192 ≤ n ∧ n ≤ 223 then 2 else if 224 ≤ n ∧ n ≤ 239 then 3
      else if 240 ≤ n ∧ n ≤ 247 then 4 else 1 := by
  subst h
  rfl

theorem lead_of_ascii {c : Char} (h : c.toNat < 128) : lead c = UInt8.ofNat c.toNat := by
  have hle : c.val.toNat ≤ 127 := Nat.le_of_lt_succ h
  simp only [lead, String.utf8EncodeChar, if_pos hle]
  rfl

theorem trail_of_ascii {c : Char} (h : c.toNat < 128) : trail c = [] := by
  have hle : c.val.toNat ≤ 127 := Nat.le_of_lt_succ h
  simp only [trail, String.utf8EncodeChar, if_pos hle, List.tail_cons]

theorem toNat_lead_of_ascii {c : Char} (h : c.toNat < 128) : (lead c).toNat = c.toNat := by
  rw [lead_of_ascii h, toNat_ofNat_of_lt (by omega)]

/-- The form of a character outside ASCII: a lead byte that tells the length, then continuation
bytes. -/
theorem shape_of_not_ascii {c : Char} (h : 128 ≤ c.toNat) :
    192 ≤ lead c ∧ Byte.width (lead c) = (trail c).length + 1 ∧
      ∀ b ∈ trail c, 128 ≤ b ∧ b < 192 := by
  have h0 : ¬ c.val.toNat ≤ 0x7f := by
    change 128 ≤ c.val.toNat at h
    omega
  simp only [lead, trail, String.utf8EncodeChar, if_neg h0]
  -- Two, three or four bytes: the lead byte is the length mark plus the highest bits.
  split
  · have hl := toNat_ofNat_of_lt (n := c.val.toNat / 64 % 0x20 + 0xc0) (by omega)
    refine ⟨?_, ?_, ?_⟩
    · rw [UInt8.le_iff_toNat_le, List.headD_cons, hl]
      exact Nat.le_add_left _ _
    · rw [List.headD_cons, width_of_toNat hl, if_pos (by omega)]
      rfl
    · simp only [List.tail_cons, List.forall_mem_singleton]
      exact continuation_bounds _
  · split
    · have hl := toNat_ofNat_of_lt (n := c.val.toNat / 4096 % 0x10 + 0xe0) (by omega)
      refine ⟨?_, ?_, ?_⟩
      · rw [UInt8.le_iff_toNat_le, List.headD_cons, hl]
        exact Nat.le_trans (by decide) (Nat.le_add_left 0xe0 _)
      · rw [List.headD_cons, width_of_toNat hl, if_neg (by omega), if_pos (by omega)]
        rfl
      · simp only [List.tail_cons, List.forall_mem_cons]
        exact ⟨continuation_bounds _, continuation_bounds _, List.forall_mem_nil _⟩
    · have hl := toNat_ofNat_of_lt (n := c.val.toNat / 262144 % 0x08 + 0xf0) (by omega)
      refine ⟨?_, ?_, ?_⟩
      · rw [UInt8.le_iff_toNat_le, List.headD_cons, hl]
        exact Nat.le_trans (by decide) (Nat.le_add_left 0xf0 _)
      · rw [List.headD_cons, width_of_toNat hl, if_neg (by omega), if_neg (by omega),
          if_pos (by omega)]
        rfl
      · simp only [List.tail_cons, List.forall_mem_cons]
        exact ⟨continuation_bounds _, continuation_bounds _, continuation_bounds _,
          List.forall_mem_nil _⟩

theorem width_lead (c : Char) : Byte.width (lead c) = (trail c).length + 1 := by
  by_cases h : c.toNat < 128
  · rw [trail_of_ascii h, width_of_toNat (toNat_lead_of_ascii h), if_neg (by omega),
      if_neg (by omega), if_neg (by omega)]
    rfl
  · exact (shape_of_not_ascii (Nat.le_of_not_lt h)).2.1

/-- No byte behind the first of a character is ASCII, and a character that has one is not ASCII. -/
theorem high_of_mem_trail {c : Char} {b : UInt8} (h : b ∈ trail c) : 128 ≤ b ∧ 128 ≤ lead c := by
  by_cases hc : c.toNat < 128
  · rw [trail_of_ascii hc] at h
    exact absurd h List.not_mem_nil
  · obtain ⟨hl, -, ht⟩ := shape_of_not_ascii (Nat.le_of_not_lt hc)
    exact ⟨(ht b h).1, UInt8.le_trans (by decide) hl⟩

theorem lead_eq_lead_iff {c d : Char} (hd : d.toNat < 128) : lead c = lead d ↔ c = d := by
  constructor
  · intro h
    by_cases hc : c.toNat < 128
    · have he := congrArg UInt8.toNat h
      rw [toNat_lead_of_ascii hc, toNat_lead_of_ascii hd] at he
      exact Char.toNat_inj.mp he
    · have hl : 192 ≤ d.toNat := by
        have hc' := (shape_of_not_ascii (Nat.le_of_not_lt hc)).1
        rw [h, UInt8.le_iff_toNat_le, toNat_lead_of_ascii hd] at hc'
        exact hc'
      omega
  · intro h
    rw [h]

theorem class_lead {p : UInt8 → Bool} {q : Char → Bool}
    (ha : ∀ n < 128, p (UInt8.ofNat n) = q (Char.ofNat n)) (hp : ∀ b, 128 ≤ b → p b = false)
    (hq : ∀ c : Char, q c = true → c.toNat < 128) (c : Char) : p (lead c) = q c := by
  by_cases h : c.toNat < 128
  · have he := ha c.toNat h
    rw [Char.ofNat_toNat] at he
    rw [lead_of_ascii h, he]
  · have hl := (shape_of_not_ascii (Nat.le_of_not_lt h)).1
    rw [hp _ (UInt8.le_trans (by decide) hl), eq_comm, Bool.eq_false_iff]
    exact fun hc => h (hq c hc)

theorem toNat_lt_of_class {p : UInt8 → Bool} (hp : ∀ b, 128 ≤ b → p b = false) {c : Char}
    (h : p (lead c) = true) : c.toNat < 128 := by
  by_contra hc
  have hl := (shape_of_not_ascii (Nat.le_of_not_lt hc)).1
  rw [hp _ (UInt8.le_trans (by decide) hl)] at h
  exact Bool.false_ne_true h

theorem toNat_lt_of_isDigit {c : Char} (h : c.isDigit = true) : c.toNat < 128 := by
  simp only [Char.isDigit, Bool.and_eq_true, decide_eq_true_eq, UInt32.le_iff_toNat_le] at h
  exact Nat.lt_of_le_of_lt h.2 (by decide)

theorem toNat_lt_of_isAlpha {c : Char} (h : c.isAlpha = true) : c.toNat < 128 := by
  rcases Bool.or_eq_true_iff.mp h with h | h
  · have h90 : c.val.toNat ≤ 90 := UInt32.le_iff_toNat_le.mp (of_decide_eq_true h).2
    exact Nat.lt_of_le_of_lt h90 (by decide)
  · have h122 : c.val.toNat ≤ 122 :=
      UInt32.le_iff_toNat_le.mp (of_decide_eq_true (Bool.and_eq_true_iff.mp h).2)
    exact Nat.lt_of_le_of_lt h122 (by decide)

theorem isDigit_of_high (b : UInt8) (h : 128 ≤ b) : Byte.isDigit b = false := by
  rw [Bool.eq_false_iff]
  intro hd
  simp only [Byte.isDigit, Bool.and_eq_true, decide_eq_true_eq] at hd
  exact absurd (UInt8.le_trans h hd.2) (by decide)

theorem isLetter_of_high (b : UInt8) (h : 128 ≤ b) : Byte.isLetter b = false := by
  rw [Bool.eq_false_iff]
  intro hl
  simp only [Byte.isLetter, Bool.or_eq_true, Bool.and_eq_true, decide_eq_true_eq,
    beq_iff_eq] at hl
  rcases hl with (hl | hl) | rfl
  · exact absurd (UInt8.le_trans h hl.2) (by decide)
  · exact absurd (UInt8.le_trans h hl.2) (by decide)
  · exact absurd h (by decide)

theorem isWord_of_high (b : UInt8) (h : 128 ≤ b) : Byte.isWord b = false := by
  rw [Byte.isWord, isLetter_of_high b h, isDigit_of_high b h]
  rfl

theorem isBlank_of_high (b : UInt8) (h : 128 ≤ b) : Byte.isBlank b = false := by
  rw [Bool.eq_false_iff]
  intro hb
  simp only [Byte.isBlank, Bool.or_eq_true, beq_iff_eq] at hb
  rcases hb with (rfl | rfl) | rfl
  · exact absurd h (by decide)
  · exact absurd h (by decide)
  · exact absurd h (by decide)

theorem isDigit_lead (c : Char) : Byte.isDigit (lead c) = c.isDigit :=
  class_lead (by decide) isDigit_of_high (fun _ h => toNat_lt_of_isDigit h) c

theorem isLetter_lead (c : Char) : Byte.isLetter (lead c) = (c.isAlpha || c == '_') := by
  refine class_lead (q := fun c => c.isAlpha || c == '_') (by decide) isLetter_of_high
    (fun c h => ?_) c
  rcases Bool.or_eq_true_iff.mp h with h | h
  · exact toNat_lt_of_isAlpha h
  · rw [beq_iff_eq.mp h]
    decide

theorem isBlank_lead (c : Char) :
    Byte.isBlank (lead c) = (c == ' ' || c == '\t' || c == '\r') := by
  apply class_lead (q := fun c => c == ' ' || c == '\t' || c == '\r') (by decide) isBlank_of_high
  intro c h
  simp only [Bool.or_eq_true, beq_iff_eq] at h
  rcases h with (rfl | rfl) | rfl
  · decide
  · decide
  · decide

/-- A class that does not tell the bytes outside ASCII apart. -/
def Coarse (p : UInt8 → Bool) : Prop :=
  ∀ a b : UInt8, 128 ≤ a → 128 ≤ b → p a = p b

theorem coarse_of_high {p : UInt8 → Bool} (h : ∀ b, 128 ≤ b → p b = false) : Coarse p :=
  fun a b ha hb => (h a ha).trans (h b hb).symm

theorem coarse_ne {a : UInt8} (h : a < 128) : Coarse (· != a) := by
  intro b c hb hc
  have hne (x : UInt8) (hx : 128 ≤ x) : (x != a) = true := by
    rw [bne_iff_ne]
    rintro rfl
    exact UInt8.not_lt.mpr hx h
  exact (hne b hb).trans (hne c hc).symm

theorem eq_lead_of_mem_trail {p : UInt8 → Bool} (hp : Coarse p) {c : Char} {b : UInt8}
    (h : b ∈ trail c) : p b = p (lead c) :=
  hp b (lead c) (high_of_mem_trail h).1 (high_of_mem_trail h).2

/-- The longest run of bytes of a coarse class ends between two characters. -/
theorem takeWhile_encode {p : UInt8 → Bool} (hp : Coarse p) (cs : List Char) :
    (encode cs).takeWhile p = encode (cs.takeWhile fun c => p (lead c)) := by
  -- A character is taken whole or not at all, so the induction is on the characters.
  induction cs with
  | nil => rfl
  | cons c cs ih =>
    by_cases h : p (lead c) = true
    · have ht : ∀ b ∈ trail c, p b = true := fun b hb => (eq_lead_of_mem_trail hp hb).trans h
      rw [encode_cons, List.takeWhile_cons_of_pos h, List.takeWhile_append_of_pos ht, ih,
        List.takeWhile_cons_of_pos (p := fun c => p (lead c)) h, encode_cons]
    · rw [encode_cons, List.takeWhile_cons_of_neg h,
        List.takeWhile_cons_of_neg (p := fun c => p (lead c)) h, encode_nil]

/-- Where an ASCII byte stands in the UTF-8 form of a text, there its character stands in the text.
-/
theorem exists_of_encode_eq_append {cs : List Char} {d : Char} (hd : d.toNat < 128)
    {pre post : List UInt8} (h : encode cs = pre ++ lead d :: post) :
    ∃ us vs, cs = us ++ d :: vs ∧ encode us = pre ∧ encode vs = post := by
  induction cs generalizing pre with
  | nil => simp [encode_nil] at h
  | cons c cs ih =>
    rw [encode_cons] at h
    cases pre with
    | nil =>
      obtain ⟨hl, hr⟩ := List.cons.inj h
      obtain rfl := (lead_eq_lead_iff hd).mp hl
      rw [trail_of_ascii hd, List.nil_append] at hr
      exact ⟨[], cs, rfl, rfl, hr⟩
    | cons b pre =>
      obtain ⟨rfl, ht⟩ := List.cons.inj h
      rcases List.append_eq_append_iff.mp ht with ⟨m, hm, hr⟩ | ⟨m, hm, hr⟩
      · obtain ⟨us, vs, hcs, hus, hvs⟩ := ih hr
        exact ⟨c :: us, vs, by rw [hcs, List.cons_append], by rw [encode_cons, hus, hm], hvs⟩
      · cases m with
        | nil =>
          have hnil : encode cs = [] ++ lead d :: post := hr.symm
          obtain ⟨us, vs, hcs, hus, hvs⟩ := ih hnil
          refine ⟨c :: us, vs, by rw [hcs, List.cons_append], ?_, hvs⟩
          rw [encode_cons, hus, hm, List.append_nil, List.append_nil]
        | cons x m =>
          have hx : lead d ∈ trail c := by
            rw [hm, ← (List.cons.inj hr).1]
            exact List.mem_append_right _ List.mem_cons_self
          have hh := (high_of_mem_trail hx).1
          rw [UInt8.le_iff_toNat_le, toNat_lead_of_ascii hd] at hh
          exact absurd hd (Nat.not_lt.mpr hh)

theorem head?_encode_iff {cs : List Char} {d : Char} (hd : d.toNat < 128) :
    (encode cs).head? = some (lead d) ↔ cs.head? = some d := by
  cases cs with
  | nil => simp only [encode_nil, List.head?_nil, reduceCtorEq]
  | cons c cs =>
    rw [encode_cons, List.head?_cons, List.head?_cons, Option.some_inj, Option.some_inj]
    exact lead_eq_lead_iff hd

theorem getLast?_encode_iff {cs : List Char} {d : Char} (hd : d.toNat < 128) :
    (encode cs).getLast? = some (lead d) ↔ cs.getLast? = some d := by
  rw [List.getLast?_eq_some_iff, List.getLast?_eq_some_iff]
  constructor
  · rintro ⟨ys, hy⟩
    obtain ⟨us, vs, rfl, -, hvs⟩ := exists_of_encode_eq_append hd hy
    rw [encode_eq_nil hvs]
    exact ⟨us, rfl⟩
  · rintro ⟨us, rfl⟩
    refine ⟨encode us, ?_⟩
    rw [encode_append, encode_cons, trail_of_ascii hd]
    rfl

theorem lead_mem_encode_iff {cs : List Char} {d : Char} (hd : d.toNat < 128) :
    lead d ∈ encode cs ↔ d ∈ cs := by
  constructor
  · intro h
    obtain ⟨pre, post, he⟩ := List.append_of_mem h
    obtain ⟨us, vs, rfl, -, -⟩ := exists_of_encode_eq_append hd he
    exact List.mem_append_right _ List.mem_cons_self
  · intro h
    obtain ⟨us, vs, rfl⟩ := List.append_of_mem h
    rw [encode_append, encode_cons]
    exact List.mem_append_right _ List.mem_cons_self

theorem count_encode {d : Char} (hd : d.toNat < 128) (cs : List Char) :
    (encode cs).count (lead d) = cs.count d := by
  induction cs with
  | nil => rfl
  | cons c cs ih =>
    have htrail : (trail c).count (lead d) = 0 := by
      apply List.count_eq_zero_of_not_mem
      intro hm
      have hh := (high_of_mem_trail hm).1
      rw [UInt8.le_iff_toNat_le, toNat_lead_of_ascii hd] at hh
      exact absurd hd (Nat.not_lt.mpr hh)
    rw [encode_cons, List.count_cons, List.count_append, htrail, ih, Nat.zero_add, List.count_cons]
    simp only [beq_iff_eq, lead_eq_lead_iff hd]

theorem count_newline_encode (cs : List Char) : (encode cs).count Byte.newline = cs.count '\n' :=
  count_encode (d := '\n') (by decide) cs

end LoxFront.Text
