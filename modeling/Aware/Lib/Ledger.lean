import Aware.Lib.Keyed

/-!
# A shared table with an entry for each owner

Entries are found and deleted by their keys alone. As long as keys are distinct, an owner's entry
is the one its key finds.
-/
namespace Aware

variable {κ τ ι : Type*} {entries entries' : List (κ × τ)} {Owns Owns' : τ → ι → Prop}
  {key key' : ι → κ}

/-- Every entry is that of an owner with the holder it names, every owner has its entry, and no
two owners have one key. -/
structure Ledger (entries : List (κ × τ)) (Owns : τ → ι → Prop) (key : ι → κ) : Prop where
  nodup : (entries.map Prod.fst).Nodup
  owner : ∀ e ∈ entries, ∃ x, Owns e.2 x ∧ key x = e.1
  entry : ∀ t x, Owns t x → (key x, t) ∈ entries
  inj : ∀ t t' x x', Owns t x → Owns t' x' → key x = key x' → x = x'

namespace Ledger

theorem congr (h : Ledger entries Owns key) (howns : ∀ t x, Owns' t x ↔ Owns t x)
    (hkey : ∀ t x, Owns t x → key' x = key x) : Ledger entries Owns' key' where
  nodup := h.nodup
  owner e he := by
    obtain ⟨x, hx, hk⟩ := h.owner e he
    exact ⟨x, (howns _ x).mpr hx, (hkey _ x hx).trans hk⟩
  entry t x hx := by
    have hx := (howns t x).mp hx
    rw [hkey t x hx]
    exact h.entry t x hx
  inj t t' x x' hx hx' heq := by
    have hx := (howns t x).mp hx
    have hx' := (howns t' x').mp hx'
    rw [hkey t x hx, hkey t' x' hx'] at heq
    exact h.inj t t' x x' hx hx' heq

variable {k : κ} {t₀ : τ} {x₀ : ι}

theorem insert (h : Ledger entries Owns key) (hmem : ∀ e, e ∈ entries' ↔ e = (k, t₀) ∨ e ∈ entries)
    (hnodup : (entries'.map Prod.fst).Nodup) (hfree : k ∉ entries.map Prod.fst)
    (howns : ∀ t x, Owns' t x ↔ (t = t₀ ∧ x = x₀) ∨ Owns t x) (hk : key' x₀ = k)
    (hkey : ∀ t x, Owns t x → key' x = key x) : Ledger entries' Owns' key' := by
  have hne : ∀ t x, Owns t x → key x ≠ k := fun t x hx heq =>
    hfree (List.mem_map.mpr ⟨_, h.entry t x hx, heq⟩)
  refine ⟨hnodup, fun e he => ?_, fun t x hx => ?_, fun t t' x x' hx hx' heq => ?_⟩
  · rcases (hmem e).mp he with rfl | he
    · exact ⟨x₀, (howns _ _).mpr (.inl ⟨rfl, rfl⟩), hk⟩
    · obtain ⟨x, hx, hkx⟩ := h.owner e he
      exact ⟨x, (howns _ _).mpr (.inr hx), (hkey _ x hx).trans hkx⟩
  · rcases (howns t x).mp hx with ⟨rfl, rfl⟩ | hx
    · exact (hmem _).mpr (.inl (by rw [hk]))
    · rw [hkey t x hx]
      exact (hmem _).mpr (.inr (h.entry t x hx))
  · rcases (howns t x).mp hx with ⟨rfl, rfl⟩ | hx <;>
      rcases (howns t' x').mp hx' with ⟨rfl, rfl⟩ | hx'
    · rfl
    · rw [hk, hkey t' x' hx'] at heq
      exact absurd heq.symm (hne t' x' hx')
    · rw [hk, hkey t x hx] at heq
      exact absurd heq (hne t x hx)
    · rw [hkey t x hx, hkey t' x' hx'] at heq
      exact h.inj t t' x x' hx hx' heq

theorem remove (h : Ledger entries Owns key) (hx₀ : Owns t₀ x₀)
    (hmem : ∀ e, e ∈ entries' ↔ e ∈ entries ∧ e.1 ≠ key x₀)
    (hnodup : (entries'.map Prod.fst).Nodup)
    (howns : ∀ t x, Owns' t x ↔ Owns t x ∧ x ≠ x₀) : Ledger entries' Owns' key where
  nodup := hnodup
  owner e he := by
    obtain ⟨he, hne⟩ := (hmem e).mp he
    obtain ⟨x, hx, hk⟩ := h.owner e he
    exact ⟨x, (howns _ x).mpr ⟨hx, fun heq => hne (by rw [← hk, heq])⟩, hk⟩
  entry t x hx := by
    obtain ⟨hx, hne⟩ := (howns t x).mp hx
    exact (hmem _).mpr ⟨h.entry t x hx, fun heq => hne (h.inj t t₀ x x₀ hx hx₀ heq)⟩
  inj t t' x x' hx hx' := h.inj t t' x x' ((howns t x).mp hx).1 ((howns t' x').mp hx').1

end Ledger

end Aware
