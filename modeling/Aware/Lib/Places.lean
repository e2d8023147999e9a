import Mathlib.Data.List.Nodup
import Mathlib.Data.List.Perm.Basic
import Mathlib.Logic.Function.Basic

/-!
# Objects in one place

Objects of a pool that several holders take from and give back to.
-/
namespace Aware
open Function

variable {ι τ : Type*} [DecidableEq τ]

/-- Every object is in the pool or with one holder, and there once. -/
structure Placed (pool : List ι) (held : τ → List ι) : Prop where
  once : pool.Nodup
  nodup : ∀ t, (held t).Nodup
  apart : ∀ t t' x, x ∈ held t → x ∈ held t' → t = t'
  out : ∀ t x, x ∈ held t → x ∉ pool

namespace Placed

variable {pool l : List ι} {held : τ → List ι} {t : τ} {x : ι}

theorem replace (h : Placed pool held) {pool' : List ι} (hpool : pool'.Nodup) (hl : l.Nodup)
    (hnew : ∀ x ∈ l, x ∉ pool' ∧ ∀ t', x ∈ held t' → t' = t)
    (hout : ∀ t' x, t' ≠ t → x ∈ held t' → x ∉ pool') :
    Placed pool' (update held t l) := by
  have hmem : ∀ t' y, y ∈ update held t l t' →
      (t' = t ∧ y ∈ l) ∨ (t' ≠ t ∧ y ∈ held t') := by
    intro t' y hy
    rcases eq_or_ne t' t with rfl | ht
    · rw [update_self] at hy
      exact .inl ⟨rfl, hy⟩
    · rw [update_of_ne ht] at hy
      exact .inr ⟨ht, hy⟩
  refine ⟨hpool, fun t' => ?_, fun t₁ t₂ y h₁ h₂ => ?_, fun t' y hy => ?_⟩
  · rcases eq_or_ne t' t with rfl | ht
    · rwa [update_self]
    · rw [update_of_ne ht]
      exact h.nodup t'
  · rcases hmem t₁ y h₁ with ⟨rfl, hy₁⟩ | ⟨hne₁, hy₁⟩ <;>
      rcases hmem t₂ y h₂ with ⟨rfl, hy₂⟩ | ⟨hne₂, hy₂⟩
    · rfl
    · exact absurd ((hnew y hy₁).2 t₂ hy₂) hne₂
    · exact absurd ((hnew y hy₂).2 t₁ hy₁) hne₁
    · exact h.apart t₁ t₂ y hy₁ hy₂
  · rcases hmem t' y hy with ⟨-, hnewy⟩ | ⟨ht, hold⟩
    · exact (hnew y hnewy).1
    · exact hout t' y ht hold

theorem take (h : Placed (x :: pool) held) (hl : (x :: held t).Perm l) :
    Placed pool (update held t l) := by
  obtain ⟨hx, hpool⟩ := List.nodup_cons.mp h.once
  have hfree : ∀ t', x ∉ held t' := fun t' hx => h.out t' x hx List.mem_cons_self
  refine h.replace hpool (hl.nodup_iff.mp (List.nodup_cons.mpr ⟨hfree t, h.nodup t⟩)) ?_ ?_
  · intro y hy
    rcases List.mem_cons.mp (hl.mem_iff.mpr hy) with rfl | hy
    · exact ⟨hx, fun t' hy => absurd hy (hfree t')⟩
    · exact ⟨fun hp => h.out t y hy (List.mem_cons_of_mem _ hp), fun t' hy' => h.apart t' t y hy' hy⟩
  · exact fun t' y _ hy hp => h.out t' y hy (List.mem_cons_of_mem _ hp)

theorem give (h : Placed pool held) (hl : held t = x :: l) :
    Placed (x :: pool) (update held t l) := by
  have hnodup := h.nodup t
  rw [hl] at hnodup
  obtain ⟨hx, hnodup⟩ := List.nodup_cons.mp hnodup
  have hheld : x ∈ held t := hl ▸ List.mem_cons_self
  refine h.replace (List.nodup_cons.mpr ⟨h.out t x hheld, h.once⟩) hnodup ?_ ?_
  · intro y hy
    have hy' : y ∈ held t := hl ▸ List.mem_cons_of_mem _ hy
    refine ⟨fun hp => ?_, fun t' ht' => h.apart t' t y ht' hy'⟩
    rcases List.mem_cons.mp hp with rfl | hp
    · exact hx hy
    · exact h.out t y hy' hp
  · intro t' y ht hy hp
    rcases List.mem_cons.mp hp with rfl | hp
    · exact ht (h.apart t' t y hy hheld)
    · exact h.out t' y hy hp

theorem perm (h : Placed pool held) (hl : (held t).Perm l) :
    Placed pool (update held t l) := by
  refine h.replace h.once (hl.nodup_iff.mp (h.nodup t)) (fun y hy => ?_) fun t' y _ => h.out t' y
  have hy := hl.mem_iff.mpr hy
  exact ⟨h.out t y hy, fun t' hy' => h.apart t' t y hy' hy⟩

end Placed

end Aware
