import Mathlib.Data.List.Basic

/-!
# Bytes in memory

Reading and writing runs of bytes in a memory that is addressed from a fixed place on.
-/
namespace Aware.Memory

def slice (m : ℕ → UInt8) (off n : ℕ) : List UInt8 :=
  (List.range' off n).map m

def write (m : ℕ → UInt8) (off : ℕ) (bs : List UInt8) : ℕ → UInt8 :=
  fun i => if off ≤ i then bs.getD (i - off) (m i) else m i

variable {m m' : ℕ → UInt8} {off off' n k i : ℕ} {bs : List UInt8}

@[simp] theorem length_slice : (slice m off n).length = n := by
  rw [slice, List.length_map, List.length_range']

theorem slice_add : slice m off (n + k) = slice m off n ++ slice m (off + n) k := by
  rw [slice, slice, slice, ← List.map_append, List.range'_append_1]

theorem drop_slice : (slice m off n).drop k = slice m (off + k) (n - k) := by
  rw [slice, slice, ← List.map_drop, List.drop_range', Nat.mul_one]

theorem slice_congr (h : ∀ i, off ≤ i → i < off + n → m i = m' i) : slice m off n = slice m' off n := by
  refine List.map_congr_left fun i hi => ?_
  rw [List.mem_range'_1] at hi
  exact h i hi.1 hi.2

theorem write_outside (h : i < off ∨ off + bs.length ≤ i) : write m off bs i = m i := by
  unfold write
  split
  · rw [List.getD_eq_getElem?_getD, List.getElem?_eq_none (by omega), Option.getD_none]
  · rfl

theorem write_inside (h : k < bs.length) : write m off bs (off + k) = bs[k] := by
  unfold write
  rw [if_pos (Nat.le_add_right off k), Nat.add_sub_cancel_left, List.getD_eq_getElem?_getD,
    List.getElem?_eq_getElem h, Option.getD_some]

theorem slice_write_outside (h : off' + n ≤ off ∨ off + bs.length ≤ off') :
    slice (write m off bs) off' n = slice m off' n := by
  apply slice_congr
  intro i hle hlt
  exact write_outside (by omega)

theorem slice_write : slice (write m off bs) off bs.length = bs := by
  apply List.ext_getElem
  · rw [length_slice]
  · intro k _ hk
    simp only [slice, List.getElem_map, List.getElem_range', Nat.one_mul]
    exact write_inside hk

theorem write_write {cs : List UInt8} (h : bs.length = cs.length) :
    write (write m off bs) off cs = write m off cs := by
  funext i
  by_cases hout : i < off ∨ off + cs.length ≤ i
  · rw [write_outside hout, write_outside hout, write_outside (by omega)]
  · rw [not_or] at hout
    obtain ⟨k, rfl⟩ := Nat.exists_eq_add_of_le (Nat.le_of_not_lt hout.1)
    have hk : k < cs.length := by omega
    rw [write_inside hk, write_inside hk]

end Aware.Memory
