import Aware.Lib.Memory

/-!
# Programs on a region of memory

A program reads and writes bytes of a memory of which only the first `n` belong to it. A run that
touches another byte has no result.
-/
namespace Aware.Region
open Memory (slice)

abbrev Prog (α : Type) := StateT (ℕ → UInt8) Option α

def Inside (n off k : ℕ) : Prop := k = 0 ∨ off + k ≤ n

instance (n off k : ℕ) : Decidable (Inside n off k) := inferInstanceAs (Decidable (_ ∨ _))

def read (n off k : ℕ) : Prog (List UInt8) := fun m =>
  if Inside n off k then some (slice m off k, m) else none

def write (n off : ℕ) (bs : List UInt8) : Prog Unit := fun m =>
  if Inside n off bs.length then some ((), Memory.write m off bs) else none

variable {α : Type} {n off k : ℕ} {bs : List UInt8} {m m' : ℕ → UInt8}

theorem inside_of_le (h : off + k ≤ n) : Inside n off k := .inr h

theorem not_inside (hk : 0 < k) (h : n < off + k) : ¬ Inside n off k := by
  intro hin
  cases hin with
  | inl hzero => exact absurd hzero (Nat.ne_of_gt hk)
  | inr hle => exact absurd hle (Nat.not_le_of_lt h)

theorem bind_run {x : Prog Unit} (h : x m = some ((), m')) (f : Unit → Prog α) : (x >>= f) m = f () m' := by
  change (x m).bind _ = _
  rw [h]
  rfl

theorem bind_none {x : Prog Unit} (h : x m = none) (f : Unit → Prog α) : (x >>= f) m = none := by
  change (x m).bind _ = _
  rw [h]
  rfl

theorem read_bind (h : off + k ≤ n) (f : List UInt8 → Prog α) :
    (read n off k >>= f) m = f (slice m off k) m := by
  change (read n off k m).bind _ = _
  rw [read, if_pos (inside_of_le h)]
  rfl

theorem read_bind_outside (hk : 0 < k) (h : n < off + k) (f : List UInt8 → Prog α) :
    (read n off k >>= f) m = none := by
  change (read n off k m).bind _ = _
  rw [read, if_neg (not_inside hk h)]
  rfl

theorem read_bind_none {f : List UInt8 → Prog α} (h : f (slice m off k) m = none) :
    (read n off k >>= f) m = none := by
  change (read n off k m).bind _ = _
  rw [read]
  split
  · exact h
  · rfl

theorem write_run (h : off + bs.length ≤ n) : write n off bs m = some ((), Memory.write m off bs) :=
  if_pos (inside_of_le h)

theorem write_outside (hk : 0 < bs.length) (h : n < off + bs.length) : write n off bs m = none :=
  if_neg (not_inside hk h)

theorem write_then {off' : ℕ} {cs : List UInt8} (h : off + bs.length ≤ n) (h' : off' + cs.length ≤ n) :
    (write n off bs >>= fun _ => write n off' cs) m =
      some ((), Memory.write (Memory.write m off bs) off' cs) := by
  rw [bind_run (write_run h)]
  exact write_run h'

end Aware.Region
