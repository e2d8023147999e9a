import Mathlib.Data.List.Nodup
import Mathlib.Logic.Function.Iterate

/-!
# Lists with distinct keys

Removing the first element with a key removes every element with it. Where keys come more than
once, that takes as many removals.
-/
namespace Aware.Keyed

variable {α κ : Type*} [BEq κ] [LawfulBEq κ] {f : α → κ} {l : List α}

theorem eraseP_eq_filter (h : (l.map f).Nodup) (k : κ) :
    l.eraseP (fun a => f a == k) = l.filter fun a => f a != k := by
  induction l with
  | nil => rfl
  | cons a l ih =>
    rw [List.map_cons, List.nodup_cons] at h
    by_cases ha : f a = k
    · have hkeep : l.filter (fun a => f a != k) = l := by
        refine List.filter_eq_self.mpr fun b hb => ?_
        have hne : f b ≠ f a := fun heq => h.1 (heq ▸ List.mem_map_of_mem hb)
        simpa [ha] using hne
      simp [ha, hkeep]
    · simp [ha, ih h.2]

theorem mem_eraseP (h : (l.map f).Nodup) {k : κ} {a : α} :
    a ∈ l.eraseP (fun a => f a == k) ↔ a ∈ l ∧ f a ≠ k := by
  rw [eraseP_eq_filter h, List.mem_filter, bne_iff_ne]

omit [BEq κ] [LawfulBEq κ] in
theorem nodup_eraseP (h : (l.map f).Nodup) (p : α → Bool) : ((l.eraseP p).map f).Nodup :=
  h.sublist (List.eraseP_sublist.map f)

section Repeated
variable {p : α → Bool}

theorem countP_eraseP (l : List α) : (l.eraseP p).countP p = l.countP p - 1 := by
  induction l with
  | nil => rfl
  | cons a l ih =>
    cases ha : p a with
    | false =>
      rw [List.eraseP_cons_of_neg (by simp [ha]), List.countP_cons_of_neg (by simp [ha]), ih,
        List.countP_cons_of_neg (by simp [ha])]
    | true => simp [ha]

theorem countP_iterate_eraseP (n : ℕ) (l : List α) :
    ((List.eraseP p)^[n] l).countP p = l.countP p - n := by
  induction n generalizing l with
  | zero => rfl
  | succ n ih => rw [Function.iterate_succ_apply, ih, countP_eraseP, Nat.sub_sub, Nat.add_comm]

theorem filter_eraseP (l : List α) :
    (l.eraseP p).filter (fun a => !p a) = l.filter fun a => !p a := by
  induction l with
  | nil => rfl
  | cons a l ih =>
    cases ha : p a with
    | false => simp [ha, ih]
    | true => simp [ha]

/-- Repeated removal of the first element with a property leaves those without it exactly when
there are no more with it than removals. -/
theorem iterate_eraseP_eq_filter_iff (n : ℕ) (l : List α) :
    (List.eraseP p)^[n] l = l.filter (fun a => !p a) ↔ l.countP p ≤ n := by
  induction n generalizing l with
  | zero =>
    rw [Function.iterate_zero_apply, eq_comm, List.filter_eq_self, Nat.le_zero,
      List.countP_eq_zero]
    simp
  | succ n ih =>
    rw [Function.iterate_succ_apply, ← filter_eraseP, ih, countP_eraseP]
    omega

end Repeated

end Aware.Keyed
