import Mathlib.Data.List.Basic

/-!
# Runs of a partial step function

A step may fail. What holds along a run holds in every state the run passes, and no step of
the run fails.
-/
namespace Aware.Runs

variable {σ ι : Type*} (step : σ → ι → Option σ)

/-- `P` in every state passed, and every step succeeds. -/
def Along (P : σ → Prop) : σ → List ι → Prop
  | s, [] => P s
  | s, i :: is => P s ∧ ∃ s', step s i = some s' ∧ Along P s' is

def Guarded (G : σ → ι → Prop) : σ → List ι → Prop
  | _, [] => True
  | s, i :: is => G s i ∧ ∀ s', step s i = some s' → Guarded G s' is

variable {step} {P Inv : σ → Prop} {G : σ → ι → Prop}

instance Guarded.decidable [∀ s i, Decidable (G s i)] :
    (s : σ) → (is : List ι) → Decidable (Guarded step G s is)
  | _, [] => .isTrue trivial
  | s, i :: is =>
    match h : step s i with
    | none => decidable_of_iff (G s i)
        ⟨fun hg => ⟨hg, fun _ hs => absurd (h.symm.trans hs) (by simp)⟩, And.left⟩
    | some s' =>
      haveI := Guarded.decidable s' is
      decidable_of_iff (G s i ∧ Guarded step G s' is)
        (and_congr_right fun _ => ⟨fun hr _ hs => Option.some.inj (h.symm.trans hs) ▸ hr,
          fun hr => hr s' h⟩)

variable {is : List ι} {s : σ}

theorem foldlM_invariant
    (hstep : ∀ s i s', i ∈ is → P s → step s i = some s' → P s') {s' : σ} (hs : P s)
    (h : is.foldlM step s = some s') : P s' := by
  induction is generalizing s with
  | nil =>
    cases h
    exact hs
  | cons i is ih =>
    rw [List.foldlM_cons, Option.bind_eq_bind, Option.bind_eq_some_iff] at h
    obtain ⟨s₁, hs₁, hrest⟩ := h
    exact ih (fun s i s' hi => hstep s i s' (List.mem_cons_of_mem _ hi))
      (hstep s i s₁ List.mem_cons_self hs hs₁) hrest

theorem Guarded.foldlM_invariant
    (hstep : ∀ s i s', P s → G s i → step s i = some s' → P s') {s' : σ} (hs : P s)
    (hg : Guarded step G s is) (h : is.foldlM step s = some s') : P s' := by
  induction is generalizing s with
  | nil =>
    cases h
    exact hs
  | cons i is ih =>
    rw [List.foldlM_cons, Option.bind_eq_bind, Option.bind_eq_some_iff] at h
    obtain ⟨s₁, hs₁, hrest⟩ := h
    exact ih (hstep s i s₁ hs hg.1 hs₁) (hg.2 s₁ hs₁) hrest

theorem Along.start (h : Along step P s is) : P s := by
  cases is with
  | nil => exact h
  | cons i is => exact h.1

theorem Along.of_guarded (hP : ∀ s, Inv s → P s)
    (hstep : ∀ s i, Inv s → G s i → ∃ s', step s i = some s' ∧ Inv s')
    (hs : Inv s) (hg : Guarded step G s is) : Along step P s is := by
  induction is generalizing s with
  | nil => exact hP s hs
  | cons i is ih =>
    obtain ⟨s', hs', hinv⟩ := hstep s i hs hg.1
    exact ⟨hP s hs, s', hs', ih hinv (hg.2 s' hs')⟩

theorem Along.guarded (hG : ∀ s i s', P s → step s i = some s' → P s' → G s i)
    (h : Along step P s is) : Guarded step G s is := by
  induction is generalizing s with
  | nil => trivial
  | cons i is ih =>
    obtain ⟨hs, s', hs', hrest⟩ := h
    refine ⟨hG s i s' hs hs' hrest.start, ?_⟩
    intro t ht
    cases hs'.symm.trans ht
    exact ih hrest

/-- Where an invariant holds and a step leads from `P` to `P` exactly when it meets `G`, a run
keeps `P` exactly when it is guarded. -/
theorem along_iff_guarded (hinv : ∀ s, ∀ i ∈ is, ∀ s', Inv s → step s i = some s' → Inv s')
    (hiff : ∀ s, ∀ i ∈ is, Inv s → P s → ((∃ s', step s i = some s' ∧ P s') ↔ G s i))
    (hs : Inv s) (hP : P s) : Along step P s is ↔ Guarded step G s is := by
  induction is generalizing s with
  | nil => exact iff_of_true hP trivial
  | cons i is ih =>
    have hhere := hiff s i List.mem_cons_self hs hP
    have hrest : ∀ s', step s i = some s' → P s' → (Along step P s' is ↔ Guarded step G s' is) :=
      fun s' hs' hP' => ih (fun t j hj => hinv t j (List.mem_cons_of_mem _ hj))
        (fun t j hj => hiff t j (List.mem_cons_of_mem _ hj)) (hinv s i List.mem_cons_self s' hs hs') hP'
    constructor
    · rintro ⟨-, s', hs', halong⟩
      refine ⟨hhere.mp ⟨s', hs', halong.start⟩, fun t ht => ?_⟩
      cases hs'.symm.trans ht
      exact (hrest s' hs' halong.start).mp halong
    · rintro ⟨hg, hguarded⟩
      obtain ⟨s', hs', hP'⟩ := hhere.mpr hg
      exact ⟨hP, s', hs', (hrest s' hs' hP').mpr (hguarded s' hs')⟩

end Aware.Runs
