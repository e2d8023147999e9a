import Mathlib.Data.UInt
import Mathlib.Tactic.Common

/-!
# Byte strings
-/
namespace Aware

abbrev Bytes :=
  List UInt8

def utf8 (s : String) : Bytes :=
  s.toByteArray.data.toList

theorem utf8_eq_flatMap (s : String) : utf8 s = s.toList.flatMap String.utf8EncodeChar := by
  conv_lhs => rw [← String.ofList_toList (s := s)]
  rw [utf8, String.toByteArray_ofList, List.utf8Encode, List.data_toByteArray]

theorem mem_utf8_of_ascii {s : String} (h : ∀ c ∈ s.toList, c.toNat ≤ 127) {b : UInt8}
    (hb : b ∈ utf8 s) : ∃ c ∈ s.toList, b = UInt8.ofNat c.toNat := by
  rw [utf8_eq_flatMap, List.mem_flatMap] at hb
  obtain ⟨c, hc, hb⟩ := hb
  refine ⟨c, hc, ?_⟩
  have hle : c.val.toNat ≤ 127 := h c hc
  rw [String.utf8EncodeChar, if_pos hle] at hb
  exact List.mem_singleton.mp hb

theorem append_eq_append_cons {α : Type} {u r a b : List α} {q : α} (h : u ++ r = a ++ q :: b) :
    (∃ a', a = u ++ a' ∧ r = a' ++ q :: b) ∨ ∃ c, u = a ++ q :: c ∧ b = c ++ r := by
  rcases List.append_eq_append_iff.mp h with ha | ⟨c, hu, hb⟩
  · exact .inl ha
  · cases c with
    | nil => exact .inl ⟨[], by simpa using hu.symm, hb.symm⟩
    | cons d c =>
      obtain ⟨rfl, rfl⟩ := List.cons.inj hb
      exact .inr ⟨c, hu, rfl⟩

theorem append_cons_eq_append_cons {α : Type} {u r a b : List α} {q : α}
    (h : u ++ q :: r = a ++ q :: b) :
    (u = a ∧ r = b) ∨ (∃ a', a = u ++ q :: a') ∨ ∃ c, u = a ++ q :: c ∧ b = c ++ q :: r := by
  rcases append_eq_append_cons h with ⟨a', rfl, ha'⟩ | hc
  · rcases List.append_eq_cons_iff.mp ha'.symm with ⟨rfl, hr⟩ | ⟨a'', rfl, -⟩
    · rw [List.append_nil]
      exact .inl ⟨rfl, (List.cons.inj hr).2.symm⟩
    · exact .inr (.inl ⟨a'', rfl⟩)
  · exact .inr (.inr hc)

end Aware
