import Mathlib.Data.List.Basic

/-!
# Ring buffers

A ring of `count` slots, of which one always stays free: what is stored from `head` on, and how the
two ends move. What it means that a slot has a value is a parameter.
-/
namespace Aware.RingBuffer

variable {α : Type} {stored stored' : ℕ → α → Prop} {count head tail : ℕ} {xs : List α} {x : α}

def latest (n : ℕ) (xs : List α) : List α :=
  xs.drop (xs.length - n)

@[simp] theorem latest_nil (n : ℕ) : latest n ([] : List α) = [] := List.drop_nil

/-- The slots from `head` up to `tail` have the values `xs`. -/
structure Holds (stored : ℕ → α → Prop) (count head tail : ℕ) (xs : List α) : Prop where
  head_lt : head < count
  tail_eq : tail = (head + xs.length) % count
  length_lt : xs.length < count
  at_slot : ∀ k y, xs[k]? = some y → stored ((head + k) % count) y

theorem add_mod_eq {k : ℕ} (hhead : head < count) (hk : k ≤ count) :
    (head + k) % count = if head + k < count then head + k else head + k - count := by
  split
  · rename_i hlt
    exact Nat.mod_eq_of_lt hlt
  · rename_i hle
    rw [Nat.mod_eq_sub_mod (Nat.le_of_not_lt hle)]
    exact Nat.mod_eq_of_lt (by omega)

theorem slot_ne {j k : ℕ} (hhead : head < count) (hjk : j < k) (hk : k < count) :
    (head + j) % count ≠ (head + k) % count := by
  rw [add_mod_eq hhead (by omega), add_mod_eq hhead (by omega)]
  split <;> split <;> omega

theorem Holds.full_iff (h : Holds stored count head tail xs) :
    (tail + 1) % count = head ↔ xs.length + 1 = count := by
  have hhead := h.head_lt
  have hlen := h.length_lt
  rw [h.tail_eq, Nat.mod_add_mod, Nat.add_assoc, add_mod_eq hhead (by omega)]
  split <;> omega

theorem Holds.empty_iff (h : Holds stored count head tail xs) : tail = head ↔ xs = [] := by
  have hhead := h.head_lt
  have hlen := h.length_lt
  rw [h.tail_eq, ← List.length_eq_zero_iff, add_mod_eq hhead (by omega)]
  split <;> omega

theorem Holds.push (h : Holds stored count head tail xs) (hroom : xs.length + 1 < count)
    (hx : stored' tail x) (hrest : ∀ s y, s ≠ tail → stored s y → stored' s y) :
    Holds stored' count head ((tail + 1) % count) (xs ++ [x]) := by
  refine ⟨h.head_lt, ?_, ?_, fun k y hy => ?_⟩
  · rw [h.tail_eq, Nat.mod_add_mod, List.length_append, List.length_singleton, Nat.add_assoc]
  · rw [List.length_append, List.length_singleton]
    exact hroom
  · rcases Nat.lt_or_ge k xs.length with hk | hk
    · rw [List.getElem?_append_left hk] at hy
      apply hrest _ _ _ (h.at_slot k y hy)
      rw [h.tail_eq]
      exact slot_ne h.head_lt hk h.length_lt
    · have hlast : k = xs.length := by
        obtain ⟨hlt, -⟩ := List.getElem?_eq_some_iff.mp hy
        rw [List.length_append, List.length_singleton] at hlt
        omega
      rw [hlast, List.getElem?_concat_length] at hy
      rw [hlast, ← h.tail_eq, ← Option.some.inj hy]
      exact hx

theorem Holds.pop (h : Holds stored count head tail (x :: xs)) :
    stored head x ∧ Holds stored count ((head + 1) % count) tail xs := by
  have hhead := h.head_lt
  have hshift : ∀ k, ((head + 1) % count + k) % count = (head + (k + 1)) % count := by
    intro k
    rw [Nat.mod_add_mod, Nat.add_assoc, Nat.add_comm 1 k]
  refine ⟨?_, Nat.mod_lt _ (by omega), ?_, ?_, fun k y hy => ?_⟩
  · have hfirst := h.at_slot 0 x rfl
    rwa [Nat.add_zero, Nat.mod_eq_of_lt hhead] at hfirst
  · rw [hshift, h.tail_eq, List.length_cons]
  · exact Nat.lt_of_succ_lt h.length_lt
  · rw [hshift]
    exact h.at_slot (k + 1) y hy

theorem Holds.replace (h : Holds stored count head tail xs) (hfull : xs.length + 1 = count)
    (hcount : 1 < count) (hx : stored' tail x) (hrest : ∀ s y, s ≠ tail → stored s y → stored' s y) :
    Holds stored' count ((head + 1) % count) ((tail + 1) % count) (xs.drop 1 ++ [x]) := by
  cases xs with
  | nil =>
    rw [List.length_nil] at hfull
    omega
  | cons y xs =>
    apply h.pop.2.push _ hx hrest
    rw [List.length_cons] at hfull
    omega

theorem latest_append {n : ℕ} (hn : 0 < n) (xs : List α) (x : α) :
    latest n (xs ++ [x]) =
      if (latest n xs).length < n then latest n xs ++ [x] else (latest n xs).drop 1 ++ [x] := by
  unfold latest
  rw [List.length_append, List.length_singleton, List.drop_append_of_le_length (by omega), List.length_drop,
    List.drop_drop]
  split
  · have hcut : xs.length + 1 - n = 0 ∧ xs.length - n = 0 := by omega
    rw [hcut.1, hcut.2]
  · have hcut : xs.length + 1 - n = xs.length - n + 1 := by omega
    rw [hcut]

theorem length_latest_le (n : ℕ) (xs : List α) : (latest n xs).length ≤ n := by
  rw [latest, List.length_drop]
  omega

theorem Holds.add {n : ℕ} (hn : 0 < n) (hcount : count = n + 1)
    (h : Holds stored count head tail (latest n xs)) (hx : stored' tail x)
    (hrest : ∀ s y, s ≠ tail → stored s y → stored' s y) :
    Holds stored' count (if (tail + 1) % count = head then (head + 1) % count else head)
      ((tail + 1) % count) (latest n (xs ++ [x])) := by
  have hlen := length_latest_le n xs
  rw [latest_append hn, if_congr h.full_iff rfl rfl]
  by_cases hfull : (latest n xs).length + 1 = count
  · rw [if_pos hfull, if_neg (by omega)]
    exact h.replace hfull (by omega) hx hrest
  · rw [if_neg hfull, if_pos (by omega)]
    exact h.push (by omega) hx hrest

end Aware.RingBuffer
