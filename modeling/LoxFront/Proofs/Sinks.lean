import LoxFront.Output.Sink
import Mathlib.Data.List.Basic
import Mathlib.Tactic.Common

namespace LoxFront.Sink
open Text

def upTo (capacity : Option Nat) (bytes : List UInt8) : List UInt8 :=
  match capacity with
  | none => bytes
  | some n => bytes.take n

def exceeds (capacity : Option Nat) (bytes : List UInt8) : Bool :=
  match capacity with
  | none => false
  | some n => n < bytes.length

theorem upTo_of_not_exceeds {capacity : Option Nat} {bytes : List UInt8}
    (h : exceeds capacity bytes = false) : upTo capacity bytes = bytes := by
  cases capacity with
  | none => rfl
  | some n => exact List.take_of_length_le (Nat.le_of_not_lt (of_decide_eq_false h))

theorem write_eq (s : Sink) (text : String) :
    s.write text = ({ s with stored := s.stored ++ s.fitting (bytes text) },
      if (s.fitting (bytes text)).length < (bytes text).length then some s.refusal else none) :=
  rfl

theorem fitting_of_unbounded {s : Sink} (h : s.capacity = none) (xs : List UInt8) :
    s.fitting xs = xs := by
  rw [fitting, h]

theorem fitting_prefix (s : Sink) (xs : List UInt8) : s.fitting xs <+: xs := by
  unfold fitting
  cases s.capacity with
  | none => exact List.prefix_rfl
  | some n => exact List.take_prefix _ _

theorem fitting_append (s : Sink) {xs : List UInt8} (h : s.fitting xs = xs) (ys : List UInt8) :
    s.fitting (xs ++ ys) = xs ++ ({ s with stored := s.stored ++ xs } : Sink).fitting ys := by
  unfold fitting at h ⊢
  cases hc : s.capacity with
  | none => rfl
  | some n =>
    simp only [hc] at h ⊢
    have hroom : n - (s.stored ++ xs).size = n - s.stored.size - xs.length := by
      rw [← Array.length_toList, Array.toList_appendList, List.length_append, Array.length_toList]
      omega
    rw [List.take_append, h, hroom]

theorem fitting_append_of_lt (s : Sink) {xs : List UInt8}
    (h : (s.fitting xs).length < xs.length) (ys : List UInt8) :
    s.fitting (xs ++ ys) = s.fitting xs := by
  unfold fitting at h ⊢
  cases hc : s.capacity with
  | none => simp only [hc, Nat.lt_irrefl] at h
  | some n =>
    simp only [hc, List.length_take] at h ⊢
    exact List.take_append_of_le_length (by omega)

/-- Writing texts one by one, up to the first that is refused, is writing them in one piece. -/
theorem writeAll_eq_write_join (s : Sink) (texts : List String) :
    s.writeAll texts = s.write (String.join texts) := by
  induction texts generalizing s with
  | nil =>
    obtain ⟨stored, capacity, refusal, flushes⟩ := s
    cases capacity <;> simp [writeAll, write_eq, fitting, bytes]
  | cons text texts ih =>
    rw [writeAll, write_eq, write_eq, String.join_cons, bytes_append]
    by_cases hlt : (s.fitting (bytes text)).length < (bytes text).length
    · -- The first text is cut, and nothing behind it is written.
      have hcut := s.fitting_append_of_lt hlt (bytes (String.join texts))
      rw [if_pos hlt, hcut, if_pos]
      rw [List.length_append]
      omega
    · have hfits : s.fitting (bytes text) = bytes text :=
        (s.fitting_prefix _).eq_of_length
          (Nat.le_antisymm (s.fitting_prefix _).length_le (Nat.le_of_not_lt hlt))
      have hstored (ys : List UInt8) :
          s.stored ++ (bytes text ++ ys) = s.stored ++ bytes text ++ ys := by
        apply Array.toList_inj.mp
        simp only [Array.toList_appendList, List.append_assoc]
      rw [if_neg hlt, hfits, s.fitting_append hfits, hstored]
      simp only [ih, write_eq, List.length_append, Nat.add_lt_add_iff_left]

/-- A sink with some room that has been offered a text: it holds the text as far as it has room. -/
structure Keeps (s : Sink) (room : Option Nat) (text : String) : Prop where
  capacity : s.capacity = room
  stored : s.stored.toList = upTo room (bytes text)

theorem keeps_ofCapacity (room : Option Nat) : (ofCapacity room).Keeps room "" := by
  refine ⟨rfl, ?_⟩
  cases room with
  | none => rfl
  | some n => exact List.take_nil.symm

theorem Keeps.writeAll {s : Sink} {room : Option Nat} {text : String} (h : s.Keeps room text)
    (texts : List String) : (s.writeAll texts).1.Keeps room (text ++ String.join texts) := by
  rw [writeAll_eq_write_join, write_eq]
  refine ⟨h.capacity, ?_⟩
  rw [Array.toList_appendList, h.stored, bytes_append, fitting, h.capacity]
  cases room with
  | none => rfl
  | some n =>
    have hsize : s.stored.size = min n (bytes text).length := by
      rw [← Array.length_toList, h.stored, upTo, List.length_take]
    have hroom : n - s.stored.size = n - (bytes text).length := by omega
    simp only [upTo, hroom, List.take_append]

theorem writeAll_ofCapacity (capacity : Option Nat) (texts : List String) :
    ((ofCapacity capacity).writeAll texts).1.stored.toList =
        upTo capacity (bytes (String.join texts)) ∧
      ((ofCapacity capacity).writeAll texts).2 =
        if exceeds capacity (bytes (String.join texts)) then some .full else none := by
  have hfitting (xs : List UInt8) : (ofCapacity capacity).fitting xs = upTo capacity xs := by
    cases capacity <;> rfl
  have hcut (xs : List UInt8) :
      (upTo capacity xs).length < xs.length ↔ exceeds capacity xs = true := by
    cases capacity with
    | none => simp [upTo, exceeds]
    | some n =>
      simp only [upTo, exceeds, List.length_take, decide_eq_true_eq]
      omega
  have hstored := ((keeps_ofCapacity capacity).writeAll texts).stored
  rw [String.empty_append] at hstored
  refine ⟨hstored, ?_⟩
  rw [writeAll_eq_write_join, write_eq, hfitting]
  simp only [hcut]
  rfl

end LoxFront.Sink
