import Aware.Lib.BitStrings

/-!
# Maps keyed by prefixes

A finite map from prefixes to values as a function, and the longest prefix of an address in it.
-/
namespace Aware
open Aware.BitStrings

def PrefixMap (w : ℕ) (δ : Type*) :=
  BitVec w → ℕ → Option δ

namespace PrefixMap

variable {w : ℕ} {δ : Type*}

def empty : PrefixMap w δ :=
  fun _ _ => none

def set (m : PrefixMap w δ) (k : BitVec w) (n : ℕ) (d : Option δ) : PrefixMap w δ :=
  fun k' n' => if k' = k ∧ n' = n then d else m k' n'

def Covers (k : BitVec w) (n : ℕ) (v : BitVec w) : Prop :=
  v &&& leadingOnes n = k

instance (k : BitVec w) (n : ℕ) (v : BitVec w) : Decidable (Covers k n v) :=
  inferInstanceAs (Decidable (_ = _))

def Best (m : PrefixMap w δ) (v : BitVec w) (d : δ) : Prop :=
  ∃ k n, m k n = some d ∧ Covers k n v ∧
    ∀ k' n' d', m k' n' = some d' → Covers k' n' v → n' ≤ n

def Uncovered (m : PrefixMap w δ) (v : BitVec w) : Prop :=
  ∀ k n d, m k n = some d → ¬ Covers k n v

variable {m : PrefixMap w δ} {k : BitVec w} {d : Option δ} {n : ℕ}

theorem set_self : m.set k n d k n = d := by
  simp [set]

theorem set_of_ne {k' : BitVec w} {n' : ℕ}
    (h : (k', n') ≠ (k, n)) : m.set k n d k' n' = m k' n' := by
  unfold set
  rw [if_neg fun heq => h (Prod.ext heq.1 heq.2)]

theorem set_eq_self (h : m k n = d) : m.set k n d = m := by
  funext k' n'
  by_cases heq : (k', n') = (k, n)
  · cases heq
    rw [set_self, h]
  · exact set_of_ne heq

theorem set_eq_self_iff : m.set k n d = m ↔ m k n = d := by
  refine ⟨fun h => ?_, set_eq_self⟩
  rw [← h, set_self]

theorem add_eq_set_iff {k' : BitVec w} {d : δ} :
    (if m k n = none then m.set k n (some d) else m) = m.set k' n (some d) ↔
      k' = k ∧ m k' n = none ∨ m k' n = some d ∧ m k n ≠ none := by
  by_cases hfree : m k n = none
  · rw [if_pos hfree]
    constructor
    · intro h
      by_cases hk : k' = k
      · exact .inl ⟨hk, hk ▸ hfree⟩
      · have hat := congrFun (congrFun h k) n
        rw [set_self, set_of_ne fun heq => hk (Prod.mk.inj heq).1.symm, hfree] at hat
        cases hat
    · rintro (⟨rfl, -⟩ | ⟨-, hne⟩)
      · rfl
      · exact absurd hfree hne
  · rw [if_neg hfree, eq_comm, set_eq_self_iff]
    constructor
    · exact fun h => .inr ⟨h, hfree⟩
    · rintro (⟨rfl, hnone⟩ | ⟨h, -⟩)
      · exact absurd hnone hfree
      · exact h

end PrefixMap

end Aware
