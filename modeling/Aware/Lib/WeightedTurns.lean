import Mathlib.Algebra.BigOperators.Fin
import Mathlib.Algebra.Order.BigOperators.Group.Finset
import Mathlib.Data.Int.GCD
import Mathlib.Tactic.Linarith
import Mathlib.Tactic.Ring
import Mathlib.Tactic.FinCases

/-!
# Smooth weighted turns over counters that wrap

Each of `n` parties holds a counter modulo `M`. In every turn each counter grows by its
party's weight, the first party with the greatest residue wins the turn, and the winner
pays back the sum of all weights. With signed counters every party wins exactly its
weight in each cycle; here the comparison is between residues, and the laws below say
for which weights the cycle is still fair.
-/
namespace Aware.WeightedTurns
open Finset

variable {n : ℕ}

structure FirstMax (c : Fin n → ℕ) (p : Fin n) : Prop where
  le : ∀ j, c j ≤ c p
  lt : ∀ j, j < p → c j < c p

theorem FirstMax.unique {c : Fin n → ℕ} {p q : Fin n} (hp : FirstMax c p) (hq : FirstMax c q) :
    p = q := by
  rcases lt_trichotomy p q with h | h | h
  · exact absurd (hq.lt p h) (not_lt.mpr (hp.le q))
  · exact h
  · exact absurd (hp.lt q h) (not_lt.mpr (hq.le p))

/-- The counters and the winner of every turn, from all counters at zero. -/
structure Turns (M : ℕ) (w : Fin n → ℕ) where
  cur : ℕ → Fin n → ℕ
  pick : ℕ → Fin n
  start : ∀ i, cur 0 i = 0
  best : ∀ t, FirstMax (fun i => (cur t i + w i) % M) (pick t)
  next : ∀ t i, cur (t + 1) i =
    if i = pick t then ((cur t i + w i) % M + (M - ∑ j, w j)) % M else (cur t i + w i) % M

/-- The weights, in scan order, with which two parties are served fairly. -/
def Balanced (a b : ℕ) : Prop :=
  (a : ℤ) - b = -Nat.gcd a b ∨ a = b ∨ (a : ℤ) - b = Nat.gcd a b ∨
    (a : ℤ) - b = 2 * Nat.gcd a b

instance (a b : ℕ) : Decidable (Balanced a b) := inferInstanceAs (Decidable (_ ∨ _ ∨ _ ∨ _))

namespace Turns
variable {M : ℕ} {w : Fin n → ℕ} (r : Turns M w)

def bumped (t : ℕ) (i : Fin n) : ℕ := (r.cur t i + w i) % M

def wins (t : ℕ) (i : Fin n) : ℕ := ((range t).filter (fun s => r.pick s = i)).card

/-- What party `i` has been given less what it has paid back, without wrapping. -/
def slack (t : ℕ) (i : Fin n) : ℤ := t * w i - (∑ j, w j) * r.wins t i

/-- Every cycle of as many turns as the weights add up to gives each party its weight. -/
def Fair : Prop := ∀ k i, r.wins ((k + 1) * ∑ j, w j) i = r.wins (k * ∑ j, w j) i + w i

@[simp] theorem wins_zero (i : Fin n) : r.wins 0 i = 0 := by
  simp [wins]

theorem wins_succ (t : ℕ) (i : Fin n) :
    r.wins (t + 1) i = r.wins t i + if r.pick t = i then 1 else 0 := by
  unfold wins
  rw [range_add_one, filter_insert]
  split_ifs with h
  · rw [card_insert_of_notMem (by simp)]
  · rfl

@[simp] theorem slack_zero (i : Fin n) : r.slack 0 i = 0 := by
  simp [slack]

theorem slack_succ (t : ℕ) (i : Fin n) :
    r.slack (t + 1) i = r.slack t i + w i - if r.pick t = i then ((∑ j, w j : ℕ) : ℤ) else 0 := by
  simp only [slack, wins_succ]
  split_ifs <;> push_cast <;> ring

theorem wins_add (a b : ℕ) (i : Fin n) :
    r.wins (a + b) i = r.wins a i + ((range b).filter fun t => r.pick (a + t) = i).card := by
  induction b with
  | zero => simp
  | succ b ih =>
    rw [← Nat.add_assoc, r.wins_succ, ih, range_add_one, filter_insert]
    split
    · rw [card_insert_of_notMem (by simp), Nat.add_assoc]
    · rfl

theorem cur_eq (hM : ∑ j, w j ≤ M) (t : ℕ) (i : Fin n) : (r.cur t i : ℤ) = r.slack t i % M := by
  induction t with
  | zero => simp [r.start]
  | succ t ih =>
    have hb : (((r.cur t i + w i) % M : ℕ) : ℤ) = (r.slack t i + w i) % M := by
      push_cast
      rw [ih, Int.emod_add_emod]
    rw [r.next, slack_succ]
    by_cases h : i = r.pick t
    · rw [if_pos h, if_pos h.symm]
      push_cast [Nat.cast_sub hM]
      rw [← Int.natCast_add, ← Int.natCast_emod, hb, Int.emod_add_emod]
      rw [show r.slack t i + w i + ((M : ℤ) - ∑ j, (w j : ℤ)) =
        r.slack t i + w i - ∑ j, (w j : ℤ) + M by ring, Int.add_emod_right]
    · rw [if_neg h, if_neg (Ne.symm h), sub_zero, hb]

theorem bumped_eq (hM : ∑ j, w j ≤ M) (t : ℕ) (i : Fin n) :
    (r.bumped t i : ℤ) = (r.slack t i + w i) % M := by
  rw [bumped, Int.natCast_emod, Int.natCast_add, r.cur_eq hM, Int.emod_add_emod]

theorem sum_wins (t : ℕ) : ∑ i, r.wins t i = t := by
  induction t with
  | zero => simp
  | succ t ih => simp only [wins_succ, sum_add_distrib, ih, sum_ite_eq, mem_univ, if_true]

theorem wins_eq_of_slack {t : ℕ} (ht : t = ∑ j, w j) (h0 : 0 < ∑ j, w j) (i : Fin n) :
    r.slack t i = 0 ↔ r.wins t i = w i := by
  subst ht
  have hp : ((∑ j, w j : ℕ) : ℤ) ≠ 0 := by exact_mod_cast h0.ne'
  rw [slack, ← mul_sub, mul_eq_zero, or_iff_right hp, sub_eq_zero]
  exact ⟨fun h => by exact_mod_cast h.symm, fun h => by rw [h]⟩

theorem pick_congr {t u : ℕ} (h : ∀ i, r.cur t i = r.cur u i) : r.pick t = r.pick u := by
  have hc : (fun i => (r.cur t i + w i) % M) = fun i => (r.cur u i + w i) % M :=
    funext fun i => by rw [h i]
  exact (hc ▸ r.best t).unique (r.best u)

/-- A first cycle that is fair brings every counter back to zero, so the turns repeat. -/
theorem fair_iff_first (hM : ∑ j, w j ≤ M) (h0 : 0 < ∑ j, w j) :
    r.Fair ↔ ∀ i, r.slack (∑ j, w j) i = 0 := by
  constructor
  · intro hf i
    rw [r.wins_eq_of_slack rfl h0]
    simpa using hf 0 i
  · intro hs
    have hcur : ∀ t i, r.cur (t + ∑ j, w j) i = r.cur t i := by
      intro t
      induction t with
      | zero =>
        intro i
        have he := r.cur_eq hM (∑ j, w j) i
        rw [hs i, Int.zero_emod] at he
        rw [zero_add, r.start]
        exact_mod_cast he
      | succ t ih =>
        intro i
        rw [Nat.add_right_comm, r.next, r.next, r.pick_congr ih, ih i]
    have hpick : ∀ t, r.pick (t + ∑ j, w j) = r.pick t := fun t => r.pick_congr (hcur t)
    have hwins : ∀ t i, r.wins (t + ∑ j, w j) i = r.wins t i + w i := by
      intro t i
      induction t with
      | zero => simpa using (r.wins_eq_of_slack rfl h0 i).mp (hs i)
      | succ t ih => rw [Nat.add_right_comm, wins_succ, wins_succ, hpick, ih]; omega
    intro k i
    rw [Nat.succ_mul, hwins]

theorem bumped_le_pick (t : ℕ) (i : Fin n) : r.bumped t i ≤ r.bumped t (r.pick t) :=
  (r.best t).le i

theorem bumped_lt_pick {t : ℕ} {i : Fin n} (h : i < r.pick t) :
    r.bumped t i < r.bumped t (r.pick t) :=
  (r.best t).lt i h

theorem cur_pick (t : ℕ) :
    r.cur (t + 1) (r.pick t) = (r.bumped t (r.pick t) + (M - ∑ j, w j)) % M := by
  rw [r.next, if_pos rfl, bumped]

theorem cur_of_ne {t : ℕ} {i : Fin n} (h : i ≠ r.pick t) : r.cur (t + 1) i = r.bumped t i := by
  rw [r.next, if_neg h, bumped]

theorem cur_pick_int (hM : 2 * ∑ j, w j < M) (t : ℕ) : ∃ e : ℤ,
    (e = 0 ∨ (e = 1 ∧ r.bumped t (r.pick t) < ∑ j, w j)) ∧
      (r.cur (t + 1) (r.pick t) : ℤ) = r.bumped t (r.pick t) - (∑ j, w j : ℕ) + M * e := by
  have hlt : r.bumped t (r.pick t) < M := Nat.mod_lt _ (by omega)
  rw [r.cur_pick]
  rcases lt_or_ge (r.bumped t (r.pick t)) (∑ j, w j) with h | h
  · refine ⟨1, Or.inr ⟨rfl, h⟩, ?_⟩
    rw [Nat.mod_eq_of_lt (by omega)]
    omega
  · refine ⟨0, Or.inl rfl, ?_⟩
    have hs : r.bumped t (r.pick t) + (M - ∑ j, w j) =
        (r.bumped t (r.pick t) - ∑ j, w j) + M := by omega
    rw [hs, Nat.add_mod_right, Nat.mod_eq_of_lt (by omega)]
    omega

theorem bumped_sum_succ (hM : 2 * ∑ j, w j < M) (t : ℕ) : ∃ e d : ℤ, 0 ≤ d ∧
    (e = 0 ∨ (e = 1 ∧ r.bumped t (r.pick t) < ∑ j, w j)) ∧
      ((∑ i, r.bumped (t + 1) i : ℕ) : ℤ) = (∑ i, r.bumped t i : ℕ) + M * (e - d) := by
  obtain ⟨e, he, hpay⟩ := r.cur_pick_int hM t
  refine ⟨e, (∑ i, (r.cur (t + 1) i + w i) / M : ℕ), Int.natCast_nonneg _, he, ?_⟩
  have htotal : ((∑ i, r.cur (t + 1) i : ℕ) : ℤ) =
      (∑ i, r.bumped t i : ℕ) - (∑ j, w j : ℕ) + M * e := by
    rw [← sum_erase_add _ _ (mem_univ (r.pick t)),
      ← sum_erase_add univ (r.bumped t) (mem_univ (r.pick t)),
      sum_congr rfl (fun i hi => r.cur_of_ne (ne_of_mem_erase hi))]
    push_cast at hpay ⊢
    rw [hpay]
    ring
  have hwrap : ((∑ i, r.bumped (t + 1) i : ℕ) : ℤ) + M * (∑ i, (r.cur (t + 1) i + w i) / M : ℕ) =
      (∑ i, r.cur (t + 1) i : ℕ) + (∑ j, w j : ℕ) := by
    rw [← Nat.cast_add, ← sum_add_distrib]
    push_cast
    rw [mul_sum, ← sum_add_distrib]
    exact sum_congr rfl fun i _ => by exact_mod_cast Nat.mod_add_div _ _
  rw [eq_sub_of_add_eq hwrap, htotal]
  ring

/-- The residues compared in a turn add up to the weights plus a multiple of `M` that never
passes half the number of parties. -/
theorem bumped_sum (hM : 2 * ∑ j, w j < M) (hn : 0 < n) (t : ℕ) :
    ∃ N : ℤ, ((∑ i, r.bumped t i : ℕ) : ℤ) = (∑ j, w j : ℕ) + M * N ∧ 2 * N ≤ n := by
  induction t with
  | zero =>
    refine ⟨0, ?_, by positivity⟩
    have hw : ∀ i, r.bumped 0 i = w i := fun i => by
      have := single_le_sum (fun j _ => Nat.zero_le (w j)) (mem_univ i)
      rw [bumped, r.start, zero_add, Nat.mod_eq_of_lt (by omega)]
    simp [hw]
  | succ t ih =>
    obtain ⟨N, hsum, hN⟩ := ih
    obtain ⟨e, d, hd, he, hstep⟩ := r.bumped_sum_succ hM t
    refine ⟨N + (e - d), by rw [hstep, hsum]; ring, ?_⟩
    rcases he with rfl | ⟨rfl, hlow⟩
    · omega
    · have hle : ∑ i, r.bumped t i ≤ n * r.bumped t (r.pick t) := by
        simpa using sum_le_card_nsmul univ _ _ (fun i _ => r.bumped_le_pick t i)
      have hmul : n * r.bumped t (r.pick t) + n ≤ n * ∑ j, w j := by
        rw [← Nat.mul_succ]
        exact Nat.mul_le_mul_left n hlow
      have hsmall : ((∑ j, w j : ℕ) : ℤ) + M * N ≤ n * (∑ j, w j : ℕ) - n := by
        rw [← hsum, le_sub_iff_add_le]
        exact_mod_cast (Nat.add_le_add_right hle n).trans hmul
      have hhalf : 2 * N < (n : ℤ) - 1 := by
        by_contra hcon
        have hM' : (2 * (∑ j, w j : ℕ) : ℤ) < M := by exact_mod_cast hM
        have hn' : (0 : ℤ) < n := by exact_mod_cast hn
        have h4 : (M : ℤ) * (n - 1) ≤ M * (2 * N) :=
          mul_le_mul_of_nonneg_left (not_lt.mp hcon) (Int.natCast_nonneg _)
        have h5 : (2 * (∑ j, w j : ℕ) : ℤ) * (n - 1) ≤ M * (n - 1) :=
          mul_le_mul_of_nonneg_right hM'.le (by omega)
        linarith
      omega

theorem weight_le (w : Fin n → ℕ) (i : Fin n) : w i ≤ ∑ j, w j :=
  single_le_sum (fun j _ => Nat.zero_le (w j)) (mem_univ i)

/-- Three or more parties are never served fairly: a fair cycle would end with more residues
beyond zero than `bumped_sum` allows. -/
theorem not_fair_of_three (hM : 2 * ∑ j, w j < M) (hw : ∀ i, 1 ≤ w i) (hn : 3 ≤ n) :
    ¬ r.Fair := by
  have hcard : n ≤ ∑ j, w j := by
    simpa using card_nsmul_le_sum univ w 1 (fun i _ => hw i)
  rw [r.fair_iff_first (by omega) (by omega)]
  intro hz
  obtain ⟨t, ht⟩ : ∃ t, ∑ j, w j = t + 2 := ⟨∑ j, w j - 2, by omega⟩
  set p := r.pick (t + 1) with hp
  set q := r.pick t with hq
  -- the slack compared in the last turn but one of the cycle
  have hslack : ∀ i, r.slack t i + w i =
      (if p = i then ((∑ j, w j : ℕ) : ℤ) else 0) +
        (if q = i then ((∑ j, w j : ℕ) : ℤ) else 0) - w i := by
    intro i
    have h2 := r.slack_succ (t + 1) i
    have h1 := r.slack_succ t i
    rw [show t + 1 + 1 = ∑ j, w j by omega, hz i] at h2
    rw [← hp] at h2
    rw [← hq] at h1
    linarith
  have hother : ∀ i, i ≠ p → i ≠ q → (r.bumped t i : ℤ) = M - w i := by
    intro i hip hiq
    rw [r.bumped_eq (by omega), hslack, if_neg (Ne.symm hip), if_neg (Ne.symm hiq)]
    have h1 := hw i
    have h2 := weight_le w i
    rw [show (0 : ℤ) + 0 - w i = (M - w i) + M * (-1) by ring, Int.add_mul_emod_self_left,
      Int.emod_eq_of_lt (by omega) (by omega)]
  by_cases hpq : q = p
  · have hwin : (r.bumped t p : ℤ) = 2 * (∑ j, w j : ℕ) - w p := by
      rw [r.bumped_eq (by omega), hslack, if_pos rfl, if_pos hpq]
      have h2 := weight_le w p
      rw [Int.emod_eq_of_lt (by omega) (by omega)]
      ring
    have hsum : ((∑ i, r.bumped t i : ℕ) : ℤ) = (∑ j, w j : ℕ) + M * ((n : ℤ) - 1) := by
      rw [← sum_erase_add _ _ (mem_univ p)]
      push_cast
      rw [hwin, sum_congr rfl (fun i hi =>
        hother i (ne_of_mem_erase hi) (hpq ▸ ne_of_mem_erase hi)), sum_sub_distrib,
        sum_const, card_erase_of_mem (mem_univ p), card_univ, Fintype.card_fin,
        ← sum_erase_add univ (fun i => (w i : ℤ)) (mem_univ p), nsmul_eq_mul,
        Nat.cast_sub (by omega)]
      push_cast
      rw [← sum_erase_add univ (fun i => (w i : ℤ)) (mem_univ p)]
      ring
    obtain ⟨N, hN, hhalf⟩ := r.bumped_sum hM (by omega) t
    have hM0 : (M : ℤ) ≠ 0 := by omega
    have : (n : ℤ) - 1 = N := by
      apply mul_left_cancel₀ hM0
      linarith
    omega
  · obtain ⟨i, hi⟩ : ∃ i, i ∉ ({p, q} : Finset (Fin n)) := by
      by_contra hall
      have : univ ⊆ ({p, q} : Finset (Fin n)) := fun i _ => by
        by_contra h
        exact hall ⟨i, h⟩
      have hc := card_le_card this
      rw [card_univ, Fintype.card_fin] at hc
      have := card_le_two (a := p) (b := q)
      omega
    simp only [mem_insert, mem_singleton, not_or] at hi
    have hwin : (r.bumped t q : ℤ) = (∑ j, w j : ℕ) - w q := by
      rw [r.bumped_eq (by omega), hslack, if_neg (Ne.symm hpq), if_pos rfl, zero_add]
      have h2 := weight_le w q
      rw [Int.emod_eq_of_lt (by omega) (by omega)]
    have hle := r.bumped_le_pick t i
    rw [← hq] at hle
    have h1 := hother i hi.1 hi.2
    have h2 := weight_le w i
    have h3 := hw q
    omega

theorem fair_of_one {w : Fin 1 → ℕ} (r : Turns M w) : r.Fair := by
  intro k i
  have hall : ∀ t, r.wins t i = t := fun t => by
    rw [wins, filter_true_of_mem (fun s _ => Subsingleton.elim _ _), card_range]
  have hs : ∑ j, w j = w i := by
    rw [Fin.sum_univ_one, Subsingleton.elim i 0]
  rw [hall, hall, hs, Nat.succ_mul]

section Pair
variable {w : Fin 2 → ℕ} (r : Turns M w)

theorem slack_pair (t : ℕ) : r.slack t 1 = -r.slack t 0 := by
  have h := r.sum_wins t
  rw [Fin.sum_univ_two] at h
  simp only [slack, Fin.sum_univ_two]
  have h' : (r.wins t 0 : ℤ) = t - r.wins t 1 := by omega
  rw [h']
  push_cast
  ring

theorem gcd_dvd_slack (t : ℕ) : (Nat.gcd (w 0) (w 1) : ℤ) ∣ r.slack t 0 := by
  have h0 : (Nat.gcd (w 0) (w 1) : ℤ) ∣ w 0 := by exact_mod_cast Nat.gcd_dvd_left _ _
  have h1 : (Nat.gcd (w 0) (w 1) : ℤ) ∣ w 1 := by exact_mod_cast Nat.gcd_dvd_right _ _
  rw [slack, Fin.sum_univ_two]
  push_cast
  exact dvd_sub (h0.mul_left _) ((dvd_add h0 h1).mul_right _)

theorem pair_step (t : ℕ) :
    (r.bumped t 1 ≤ r.bumped t 0 ∧ r.slack (t + 1) 0 = r.slack t 0 - w 1) ∨
      (r.bumped t 0 < r.bumped t 1 ∧ r.slack (t + 1) 0 = r.slack t 0 + w 0) := by
  have hs := r.slack_succ t 0
  rw [Fin.sum_univ_two] at hs
  rcases Fin.exists_fin_two.mp ⟨r.pick t, rfl⟩ with h | h
  · left
    have hle := r.bumped_le_pick t 1
    rw [h] at hle
    rw [if_pos h] at hs
    exact ⟨hle, by push_cast at hs; linarith⟩
  · right
    have hlt := r.bumped_lt_pick (i := 0) (show 0 < r.pick t by rw [h]; decide)
    rw [h] at hlt
    rw [h, if_neg (by decide)] at hs
    exact ⟨hlt, by linarith⟩

theorem bumped_pair (hM : 2 * (w 0 + w 1) < M) (t : ℕ) :
    (r.bumped t 0 : ℤ) = (r.slack t 0 + w 0) % M ∧
      (r.bumped t 1 : ℤ) = (w 1 - r.slack t 0) % M := by
  have hle : ∑ j, w j ≤ M := by rw [Fin.sum_univ_two]; omega
  refine ⟨r.bumped_eq hle t 0, ?_⟩
  rw [r.bumped_eq hle t 1, slack_pair]
  congr 1
  ring

theorem slack_near (hM : 2 * (w 0 + w 1) < M) (t : ℕ)
    (hr : ∀ s < t, 0 ≤ r.slack s 0 + w 0 ∧ r.slack s 0 ≤ w 1) (h0 : 0 < w 0 + w 1) :
    -((w 0 : ℤ) + w 1) ≤ 2 * r.slack t 0 ∧ 2 * r.slack t 0 < w 0 + w 1 := by
  induction t with
  | zero => rw [slack_zero]; omega
  | succ t ih =>
    obtain ⟨hlo, hhi⟩ := hr t (Nat.lt_succ_self t)
    obtain ⟨hb0, hb1⟩ := r.bumped_pair hM t
    rw [Int.emod_eq_of_lt hlo (by omega)] at hb0
    rw [Int.emod_eq_of_lt (by omega) (by omega)] at hb1
    rcases r.pair_step t with ⟨hc, hs⟩ | ⟨hc, hs⟩ <;> rw [hs] <;> omega

theorem weights_factor (h0 : 0 < w 0 + w 1) : ∃ a b : ℤ, (0 : ℤ) < Nat.gcd (w 0) (w 1) ∧
    (w 0 : ℤ) = Nat.gcd (w 0) (w 1) * a ∧ (w 1 : ℤ) = Nat.gcd (w 0) (w 1) * b := by
  obtain ⟨a, ha⟩ : (Nat.gcd (w 0) (w 1) : ℤ) ∣ w 0 := by exact_mod_cast Nat.gcd_dvd_left _ _
  obtain ⟨b, hb⟩ : (Nat.gcd (w 0) (w 1) : ℤ) ∣ w 1 := by exact_mod_cast Nat.gcd_dvd_right _ _
  have hg := Nat.gcd_pos_iff.mpr (by omega : 0 < w 0 ∨ 0 < w 1)
  exact ⟨a, b, by exact_mod_cast hg, ha, hb⟩

theorem in_range_of_balanced (hM : 2 * (w 0 + w 1) < M) (h0 : 0 < w 0 + w 1)
    (hb : Balanced (w 0) (w 1)) (t : ℕ) : 0 ≤ r.slack t 0 + w 0 ∧ r.slack t 0 ≤ w 1 := by
  induction t using Nat.strong_induction_on with
  | _ t ih =>
    obtain ⟨hlo, hhi⟩ := r.slack_near hM t ih h0
    obtain ⟨k, hk⟩ := r.gcd_dvd_slack t
    obtain ⟨a, b, hg, ha, hab⟩ := weights_factor h0
    have hbal : a - b = -1 ∨ a - b = 0 ∨ a - b = 1 ∨ a - b = 2 := by
      rcases hb with h | h | h | h <;> [left; (right; left); (right; right; left);
        (right; right; right)] <;> apply mul_left_cancel₀ hg.ne' <;> rw [mul_sub] <;> omega
    have hk1 : -(a + b) ≤ 2 * k := by
      apply le_of_mul_le_mul_left _ hg
      linarith
    have hk2 : 2 * k < a + b := by
      apply lt_of_mul_lt_mul_left _ hg.le
      linarith
    have hlow : 0 ≤ k + a := by omega
    have hhigh : k ≤ b := by omega
    rw [hk, ha, hab, ← mul_add]
    exact ⟨mul_nonneg hg.le hlow, mul_le_mul_of_nonneg_left hhigh hg.le⟩

theorem fair_of_balanced (hM : 2 * (w 0 + w 1) < M) (h0 : 0 < w 0 + w 1)
    (hb : Balanced (w 0) (w 1)) : r.Fair := by
  rw [r.fair_iff_first (by rw [Fin.sum_univ_two]; omega) (by rwa [Fin.sum_univ_two]),
    Fin.sum_univ_two]
  have hnear := r.slack_near hM (w 0 + w 1) (fun s _ => r.in_range_of_balanced hM h0 hb s) h0
  have hzero : r.slack (w 0 + w 1) 0 = 0 := by
    obtain ⟨k, hk⟩ : ((w 0 : ℤ) + w 1) ∣ r.slack (w 0 + w 1) 0 := by
      rw [slack, Fin.sum_univ_two]
      push_cast
      exact dvd_sub (Dvd.intro _ rfl) (Dvd.intro _ rfl)
    rw [hk] at hnear ⊢
    have hW : (0 : ℤ) < w 0 + w 1 := by exact_mod_cast h0
    have h1 : -1 < k := by nlinarith
    have h2 : k < 1 := by nlinarith
    rw [show k = 0 by omega, mul_zero]
  intro i
  rcases Fin.exists_fin_two.mp ⟨i, rfl⟩ with rfl | rfl
  · exact hzero
  · rw [slack_pair, hzero, neg_zero]

theorem debt_first (hM : 2 * (w 0 + w 1) < M) (hlt : w 0 < w 1) {t : ℕ}
    (h : r.slack t 0 + w 0 < 0) {u : ℕ} (hu : t ≤ u) : r.slack u 0 + w 0 < 0 := by
  induction u, hu using Nat.le_induction with
  | base => exact h
  | succ u hu ih =>
    rcases r.pair_step u with ⟨-, hs⟩ | ⟨hc, hs⟩
    · omega
    · rw [hs]
      by_contra hcon
      obtain ⟨hb0, hb1⟩ := r.bumped_pair hM u
      rw [← Int.add_mul_emod_self_left _ _ 1, Int.emod_eq_of_lt (by omega) (by omega)] at hb0
      rw [Int.emod_eq_of_lt (by omega) (by omega)] at hb1
      omega

theorem debt_second (hM : 2 * (w 0 + w 1) < M) (hlt : w 1 < w 0) {t : ℕ}
    (h : (w 1 : ℤ) < r.slack t 0) {u : ℕ} (hu : t ≤ u) : (w 1 : ℤ) < r.slack u 0 := by
  induction u, hu using Nat.le_induction with
  | base => exact h
  | succ u hu ih =>
    rcases r.pair_step u with ⟨hc, hs⟩ | ⟨-, hs⟩
    · rw [hs]
      by_contra hcon
      obtain ⟨hb0, hb1⟩ := r.bumped_pair hM u
      rw [Int.emod_eq_of_lt (by omega) (by omega)] at hb0
      rw [← Int.add_mul_emod_self_left _ _ 1, Int.emod_eq_of_lt (by omega) (by omega)] at hb1
      omega
    · omega

theorem slack_reaches (hM : 2 * (w 0 + w 1) < M) (h0 : 0 < w 0 + w 1) (k : ℤ)
    (hlo : -((w 0 : ℤ) + w 1) ≤ 2 * (Nat.gcd (w 0) (w 1) * k))
    (hhi : 2 * (Nat.gcd (w 0) (w 1) * k) < (w 0 : ℤ) + w 1) :
    ∃ t < w 0 + w 1, (∀ s < t, 0 ≤ r.slack s 0 + w 0 ∧ r.slack s 0 ≤ w 1) →
      r.slack t 0 = Nat.gcd (w 0) (w 1) * k := by
  have hW : (0 : ℤ) < w 0 + w 1 := by exact_mod_cast h0
  -- a Bézout coefficient of the first weight names the turn
  obtain ⟨x, y, hxy⟩ : ∃ x y : ℤ, (w 0 : ℤ) * x + (w 0 + w 1) * y = Nat.gcd (w 0) (w 1) * k := by
    have hb := Nat.gcd_eq_gcd_ab (w 0) (w 1)
    refine ⟨(Nat.gcdA (w 0) (w 1) - Nat.gcdB (w 0) (w 1)) * k, Nat.gcdB (w 0) (w 1) * k, ?_⟩
    rw [hb]
    ring
  refine ⟨(x % (w 0 + w 1)).toNat, ?_, ?_⟩
  · have := Int.emod_lt_of_pos x hW
    have := Int.emod_nonneg x hW.ne'
    omega
  · intro hr
    obtain ⟨hl, hh⟩ := r.slack_near hM _ hr h0
    obtain ⟨z, hz⟩ : ((w 0 : ℤ) + w 1) ∣
        r.slack (x % (w 0 + w 1)).toNat 0 - Nat.gcd (w 0) (w 1) * k := by
      rw [slack, Int.toNat_of_nonneg (Int.emod_nonneg x hW.ne'), Fin.sum_univ_two, ← hxy,
        Int.emod_def]
      refine ⟨-(w 0 * (x / (w 0 + w 1))) - r.wins (x % (w 0 + w 1)).toNat 0 - y, ?_⟩
      rw [Int.emod_def]
      push_cast
      ring
    have h1 : -1 < z := by nlinarith
    have h2 : z < 1 := by nlinarith
    rw [show z = 0 by omega, mul_zero, sub_eq_zero] at hz
    exact hz

theorem balanced_of_fair (hM : 2 * (w 0 + w 1) < M) (h0 : 0 < w 0) (h1 : 0 < w 1)
    (hf : r.Fair) : Balanced (w 0) (w 1) := by
  rw [r.fair_iff_first (by rw [Fin.sum_univ_two]; omega) (by rw [Fin.sum_univ_two]; omega),
    Fin.sum_univ_two] at hf
  have hend := hf 0
  by_contra hbal
  obtain ⟨a, b, hg, ha, hb⟩ := weights_factor (w := w) (by omega)
  have hne : ¬ (a - b = -1 ∨ a - b = 0 ∨ a - b = 1 ∨ a - b = 2) := by
    intro hcases
    apply hbal
    have hsub : (w 0 : ℤ) - w 1 = Nat.gcd (w 0) (w 1) * (a - b) := by rw [mul_sub]; omega
    rcases hcases with h | h | h | h <;> rw [h] at hsub
    · exact Or.inl (by omega)
    · exact Or.inr (Or.inl (by omega))
    · exact Or.inr (Or.inr (Or.inl (by omega)))
    · exact Or.inr (Or.inr (Or.inr (by omega)))
  rcases (by omega : a - b ≤ -2 ∨ 3 ≤ a - b) with hd | hd
  · have hlt : w 0 < w 1 := by
      have : (w 0 : ℤ) < w 1 := by rw [ha, hb]; exact mul_lt_mul_of_pos_left (by omega) hg
      exact_mod_cast this
    have hlow : ∀ s ≤ w 0 + w 1, 0 ≤ r.slack s 0 + w 0 := fun s hs => by
      by_contra hdebt
      have := r.debt_first hM hlt (not_le.mp hdebt) hs
      omega
    have hin : ∀ s ≤ w 0 + w 1, 0 ≤ r.slack s 0 + w 0 ∧ r.slack s 0 ≤ w 1 := by
      intro s
      induction s using Nat.strong_induction_on with
      | _ s ih =>
        intro hs
        have := r.slack_near hM s (fun u hu => ih u hu (by omega)) (by omega)
        exact ⟨hlow s hs, by omega⟩
    -- the turn whose slack would be one divisor below minus the first weight
    obtain ⟨t, ht, hreach⟩ := r.slack_reaches hM (by omega) (-(a + 1))
      (by rw [ha, hb]; nlinarith) (by nlinarith)
    have hs := hreach fun s hs => hin s (by omega)
    have := hlow t (by omega)
    rw [hs, ha] at this
    nlinarith
  · have hlt : w 1 < w 0 := by
      have : (w 1 : ℤ) < w 0 := by rw [ha, hb]; exact mul_lt_mul_of_pos_left (by omega) hg
      exact_mod_cast this
    have hhigh : ∀ s ≤ w 0 + w 1, r.slack s 0 ≤ w 1 := fun s hs => by
      by_contra hdebt
      have := r.debt_second hM hlt (not_le.mp hdebt) hs
      omega
    have hin : ∀ s ≤ w 0 + w 1, 0 ≤ r.slack s 0 + w 0 ∧ r.slack s 0 ≤ w 1 := by
      intro s
      induction s using Nat.strong_induction_on with
      | _ s ih =>
        intro hs
        have := r.slack_near hM s (fun u hu => ih u hu (by omega)) (by omega)
        exact ⟨by omega, hhigh s hs⟩
    obtain ⟨t, ht, hreach⟩ := r.slack_reaches hM (by omega) (b + 1)
      (by nlinarith) (by rw [ha, hb]; nlinarith)
    have hs := hreach fun s hs => hin s (by omega)
    have := hhigh t (by omega)
    rw [hs, hb] at this
    nlinarith

theorem fair_iff_balanced (hM : 2 * (w 0 + w 1) < M) (h0 : 0 < w 0) (h1 : 0 < w 1) :
    r.Fair ↔ Balanced (w 0) (w 1) :=
  ⟨r.balanced_of_fair hM h0 h1, r.fair_of_balanced hM (by omega)⟩

end Pair

end Turns
end Aware.WeightedTurns
