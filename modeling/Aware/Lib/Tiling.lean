import Mathlib.Data.List.Basic
import Mathlib.Tactic.Common

/-!
# Pieces in a row

Pieces of given lengths that lie one behind the other. Each of them is known with its place, and a
piece in the middle can be exchanged for others of the same length together.
-/
namespace Aware.Tiling

variable {α : Type*} (len : α → ℕ)

def total : List α → ℕ
  | [] => 0
  | x :: xs => len x + total xs

/-- The pieces with their places, the first at `o`. -/
def placed : ℕ → List α → List (ℕ × α)
  | _, [] => []
  | o, x :: xs => (o, x) :: placed (o + len x) xs

variable {len} {o o' i : ℕ} {x y : α} {xs ys l r : List α}

@[simp] theorem total_nil : total len [] = 0 := rfl

@[simp] theorem total_cons : total len (x :: xs) = len x + total len xs := rfl

@[simp] theorem total_append : total len (xs ++ ys) = total len xs + total len ys := by
  induction xs with
  | nil => exact (Nat.zero_add _).symm
  | cons x xs ih => rw [List.cons_append, total_cons, total_cons, ih, Nat.add_assoc]

theorem placed_append : placed len o (xs ++ ys) = placed len o xs ++ placed len (o + total len xs) ys := by
  induction xs generalizing o with
  | nil => simp [placed]
  | cons x xs ih =>
    rw [List.cons_append, placed, placed, ih, total_cons, Nat.add_assoc, List.cons_append]

theorem placed_bounds (h : (o', x) ∈ placed len o xs) : o ≤ o' ∧ o' + len x ≤ o + total len xs := by
  induction xs generalizing o with
  | nil => cases h
  | cons y xs ih =>
    rw [total_cons]
    rcases List.mem_cons.mp h with heq | h
    · cases heq
      omega
    · have := ih h
      omega

theorem mem_placed_iff : (o', x) ∈ placed len o xs ↔ ∃ l r, xs = l ++ x :: r ∧ o' = o + total len l := by
  constructor
  · intro h
    induction xs generalizing o with
    | nil => cases h
    | cons y xs ih =>
      rcases List.mem_cons.mp h with heq | h
      · cases heq
        exact ⟨[], xs, rfl, rfl⟩
      · obtain ⟨l, r, rfl, rfl⟩ := ih h
        refine ⟨y :: l, r, rfl, ?_⟩
        rw [total_cons, Nat.add_assoc]
  · rintro ⟨l, r, rfl, rfl⟩
    rw [placed_append]
    exact List.mem_append_right _ List.mem_cons_self

theorem mem_placed_append : (o', x) ∈ placed len o (l ++ ys ++ r) ↔ (o', x) ∈ placed len o l ∨
    (o', x) ∈ placed len (o + total len l) ys ∨
      (o', x) ∈ placed len (o + total len l + total len ys) r := by
  rw [placed_append, placed_append, total_append, ← Nat.add_assoc, List.mem_append, List.mem_append,
    or_assoc]

theorem placed_apart {o₁ o₂ : ℕ} (h₁ : (o₁, x) ∈ placed len o xs) (h₂ : (o₂, y) ∈ placed len o xs) :
    (o₁ = o₂ ∧ x = y) ∨ o₁ + len x ≤ o₂ ∨ o₂ + len y ≤ o₁ := by
  induction xs generalizing o with
  | nil => cases h₁
  | cons z xs ih =>
    rcases List.mem_cons.mp h₁ with heq₁ | h₁' <;> rcases List.mem_cons.mp h₂ with heq₂ | h₂'
    · cases heq₁
      cases heq₂
      exact .inl ⟨rfl, rfl⟩
    · cases heq₁
      exact .inr (.inl (placed_bounds h₂').1)
    · cases heq₂
      exact .inr (.inr (placed_bounds h₁').1)
    · exact ih h₁' h₂'

theorem placed_common {o₁ o₂ : ℕ} (h₁ : (o₁, x) ∈ placed len o xs) (h₂ : (o₂, y) ∈ placed len o xs)
    (hi₁ : o₁ ≤ i ∧ i < o₁ + len x) (hi₂ : o₂ ≤ i ∧ i < o₂ + len y) : o₁ = o₂ ∧ x = y := by
  rcases placed_apart h₁ h₂ with heq | hlt | hlt
  · exact heq
  · omega
  · omega

theorem total_filter_add (Q : α → Bool) (xs : List α) :
    total len (xs.filter Q) + total len (xs.filter fun x => !Q x) = total len xs := by
  induction xs with
  | nil => rfl
  | cons x xs ih =>
    cases hx : Q x <;> simp only [List.filter_cons, hx, Bool.not_false, Bool.not_true, if_true,
      Bool.false_eq_true, if_false, total_cons] <;> omega

theorem countP_covered {P : ℕ → Bool} {Q : α → Bool}
    (h : ∀ o' x, (o', x) ∈ placed len o xs → ∀ i, o' ≤ i → i < o' + len x → P i = Q x) :
    (List.range' o (total len xs)).countP P = total len (xs.filter Q) := by
  induction xs generalizing o with
  | nil => rfl
  | cons x xs ih =>
    have hrest := ih fun o' y hy => h o' y (List.mem_cons_of_mem _ hy)
    have hhere : (List.range' o (len x)).countP P = if Q x then len x else 0 := by
      have hall : ∀ i ∈ List.range' o (len x), P i = Q x := by
        intro i hi
        obtain ⟨hlo, hhi⟩ := List.mem_range'_1.mp hi
        exact h o x List.mem_cons_self i hlo hhi
      rw [List.countP_congr (fun i hi => by rw [hall i hi])]
      cases Q x <;> simp
    rw [total_cons, ← List.range'_append_1, List.countP_append, hrest, hhere]
    by_cases hq : Q x
    · rw [List.filter_cons_of_pos hq, total_cons, if_pos hq]
    · rw [List.filter_cons_of_neg hq, if_neg hq, Nat.zero_add]

end Aware.Tiling
