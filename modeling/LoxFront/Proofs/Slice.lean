import LoxFront.Proofs.Utf8

namespace LoxFront.Text

/-- A byte position in front of, between or behind the characters of a text. -/
def IsBoundary (source : String) (p : Nat) : Prop :=
  ∃ before after : String, source = before ++ after ∧ size before = p

/-- `piece` is what a text holds between two of its character boundaries. -/
def Slice (source : String) (start stop : Nat) (piece : String) : Prop :=
  ∃ before after : String,
    source = before ++ piece ++ after ∧ size before = start ∧ start + size piece = stop

theorem size_append (a b : String) : size (a ++ b) = size a + size b := by
  rw [size, bytes_append, List.length_append]
  rfl

theorem bytes_injective {a b : String} (h : bytes a = bytes b) : a = b := by
  rw [← ofBytes_bytes a, h, ofBytes_bytes]

theorem append_inj {a b c d : String} (h : a ++ b = c ++ d) (hs : size a = size c) :
    a = c ∧ b = d := by
  have hb : bytes a ++ bytes b = bytes c ++ bytes d := by
    rw [← bytes_append, h, bytes_append]
  obtain ⟨h1, h2⟩ := List.append_inj hb hs
  exact ⟨bytes_injective h1, bytes_injective h2⟩

theorem Slice.unique {source : String} {start stop : Nat} {piece piece' : String}
    (h : Slice source start stop piece) (h' : Slice source start stop piece') : piece = piece' := by
  obtain ⟨a, b, he, hs, ht⟩ := h
  obtain ⟨c, d, he', hs', ht'⟩ := h'
  rw [he, String.append_assoc, String.append_assoc] at he'
  obtain ⟨-, hrest⟩ := append_inj he' (hs.trans hs'.symm)
  exact (append_inj hrest (by omega)).1

theorem Slice.isBoundary {source : String} {start stop : Nat} {piece : String}
    (h : Slice source start stop piece) : IsBoundary source start ∧ IsBoundary source stop := by
  obtain ⟨before, after, rfl, rfl, rfl⟩ := h
  refine ⟨⟨before, piece ++ after, String.append_assoc, rfl⟩, ⟨before ++ piece, after, rfl, ?_⟩⟩
  exact size_append _ _

end LoxFront.Text
