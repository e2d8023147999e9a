import Mathlib.Data.List.Basic

/-!
Rows of which some are live, after changes that were meant to be taken back: rows that were added
are deleted again by a condition, and rows are marked as not live. The lemmas say when the live
rows are what they were.
-/
namespace Aware.Undo

variable {α : Type*} {live : α → Bool}
variable {p : α → Bool} {l : List α}

theorem filter_eq_filter_iff {q : α → Bool} : l.filter p = l.filter q ↔ ∀ a ∈ l, p a = q a := by
  refine ⟨fun h a ha => ?_, List.filter_congr⟩
  have hmem : a ∈ l.filter p ↔ a ∈ l.filter q := by rw [h]
  rw [Bool.eq_iff_iff]
  simpa [ha] using hmem

theorem filter_filter_eq_iff {q : α → Bool} :
    (l.filter q).filter live = l.filter live ↔ ∀ a ∈ l, live a = true → q a = true := by
  rw [List.filter_comm, List.filter_eq_self]
  simp only [List.mem_filter, and_imp]

theorem undone_iff {new : List α} :
    (((l ++ new).filter fun a => !p a).filter live = l.filter live) ↔
      (∀ a ∈ l, live a = true → p a = false) ∧ ∀ a ∈ new, live a = true → p a = true := by
  rw [List.filter_append, List.filter_append]
  constructor
  · intro h
    -- whatever is left on the left does not satisfy `p`
    have hkept : ∀ a ∈ l, live a = true → p a = false := by
      intro a ha hlive
      have hmem : a ∈ l.filter live := List.mem_filter.mpr ⟨ha, hlive⟩
      rw [← h] at hmem
      simp only [List.mem_append, List.mem_filter, Bool.not_eq_true'] at hmem
      rcases hmem with hmem | hmem
      · exact hmem.1.2
      · exact hmem.1.2
    have hold : (l.filter fun a => !p a).filter live = l.filter live := by
      rw [filter_filter_eq_iff]
      intro a ha hlive
      rw [hkept a ha hlive]
      rfl
    rw [hold, List.append_right_eq_self] at h
    refine ⟨hkept, fun a ha hlive => ?_⟩
    by_contra hp
    have hmem : a ∈ (new.filter fun a => !p a).filter live := by
      simpa [ha, hlive] using hp
    rw [h] at hmem
    cases hmem
  · rintro ⟨hold, hnew⟩
    rw [filter_filter_eq_iff.mpr fun a ha hlive => by rw [hold a ha hlive]; rfl]
    have hnil : (new.filter fun a => !p a).filter live = [] := by
      rw [List.filter_filter, List.filter_eq_nil_iff]
      intro a ha
      simp only [Bool.and_eq_true, Bool.not_eq_true', not_and, Bool.not_eq_false]
      exact hnew a ha
    rw [hnil, List.append_nil]

theorem filter_marked {kill : α → α} (hkill : ∀ a, live (kill a) = false) (l : List α) :
    (l.map fun a => if p a then kill a else a).filter live = (l.filter fun a => !p a).filter live := by
  induction l with
  | nil => rfl
  | cons a l ih =>
    rw [List.map_cons, List.filter_cons, List.filter_cons, ih]
    cases hp : p a with
    | false => simp [List.filter_cons]
    | true => simp [hkill]

theorem marked_iff {kill : α → α} (hkill : ∀ a, live (kill a) = false) :
    (l.map fun a => if p a then kill a else a).filter live = l.filter live ↔
      ∀ a ∈ l, live a = true → p a = false := by
  rw [filter_marked hkill, filter_filter_eq_iff]
  simp only [Bool.not_eq_true']

end Aware.Undo
