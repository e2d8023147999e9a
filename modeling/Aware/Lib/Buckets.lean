import Mathlib.Data.List.Nodup
import Mathlib.Logic.Function.Basic

/-!
# Hash tables with chains

A table is a chain for each hash value. An entry is updated in place when its key is in the
chain, and added in front otherwise.
-/
namespace Aware.Buckets
open Function

variable {α κ ι : Type*}

def updateFirst (p : α → Bool) (f : α → α) : List α → Option (List α)
  | [] => none
  | a :: l => if p a then some (f a :: l) else (updateFirst p f l).map (a :: ·)

theorem updateFirst_none {p : α → Bool} {f : α → α} {l : List α} (h : updateFirst p f l = none) :
    ∀ a ∈ l, p a = false := by
  induction l with
  | nil => simp
  | cons a l ih =>
    unfold updateFirst at h
    split at h
    · cases h
    · rename_i ha
      rw [List.forall_mem_cons]
      exact ⟨by simpa using ha, ih (Option.map_eq_none_iff.mp h)⟩

theorem updateFirst_some {p : α → Bool} {f : α → α} {l l' : List α}
    (h : updateFirst p f l = some l') :
    ∃ pre a post, l = pre ++ a :: post ∧ l' = pre ++ f a :: post ∧ p a = true ∧
      ∀ b ∈ pre, p b = false := by
  induction l generalizing l' with
  | nil => cases h
  | cons a l ih =>
    unfold updateFirst at h
    split at h
    · rename_i ha
      cases h
      exact ⟨[], a, l, rfl, rfl, ha, by simp⟩
    · rename_i ha
      obtain ⟨l₁, hl₁, rfl⟩ := Option.map_eq_some_iff.mp h
      obtain ⟨pre, b, post, rfl, rfl, hb, hpre⟩ := ih hl₁
      refine ⟨a :: pre, b, post, rfl, rfl, hb, ?_⟩
      rw [List.forall_mem_cons]
      exact ⟨by simpa using ha, hpre⟩

section Chain
variable [BEq κ] [LawfulBEq κ] (key : α → κ)

def enter (k : κ) (f : α → α) (a : α) (l : List α) : List α :=
  (updateFirst (fun b => key b == k) f l).getD (a :: l)

variable {key} {k : κ} {f : α → α} {a : α} (hf : ∀ b, key (f b) = key b) (ha : key a = k)
include hf ha

theorem keys_enter (l : List α) :
    (enter key k f a l).map key = if k ∈ l.map key then l.map key else k :: l.map key := by
  rw [enter]
  cases h : updateFirst (fun b => key b == k) f l with
  | none =>
    have hnot : k ∉ l.map key := by
      intro hmem
      obtain ⟨b, hb, rfl⟩ := List.mem_map.mp hmem
      simpa using updateFirst_none h b hb
    rw [if_neg hnot, Option.getD_none, List.map_cons, ha]
  | some l' =>
    obtain ⟨pre, b, post, rfl, rfl, hb, -⟩ := updateFirst_some h
    have hkey : key b = k := by simpa using hb
    have hmem : k ∈ (pre ++ b :: post).map key := List.mem_map.mpr ⟨b, by simp, hkey⟩
    rw [if_pos hmem, Option.getD_some, List.map_append, List.map_append, List.map_cons,
      List.map_cons, hf]

theorem nodup_enter {l : List α} (h : (l.map key).Nodup) :
    ((enter key k f a l).map key).Nodup := by
  rw [keys_enter hf ha]
  split
  · exact h
  · rename_i hnot
    exact List.nodup_cons.mpr ⟨hnot, h⟩

theorem find?_enter_self (l : List α) :
    (enter key k f a l).find? (fun b => key b == k) =
      some (((l.find? fun b => key b == k).map f).getD a) := by
  rw [enter]
  cases h : updateFirst (fun b => key b == k) f l with
  | none =>
    have hnone : l.find? (fun b => key b == k) = none := by
      rw [List.find?_eq_none]
      intro b hb
      simpa using updateFirst_none h b hb
    simp [hnone, ha]
  | some l' =>
    obtain ⟨pre, b, post, rfl, rfl, hb, hpre⟩ := updateFirst_some h
    have hskip : pre.find? (fun b => key b == k) = none := by
      rw [List.find?_eq_none]
      intro b hb
      simpa using hpre b hb
    have hfb : (key (f b) == k) = true := by rw [hf]; exact hb
    simp only [Option.getD_some, List.find?_append, hskip, Option.none_or, List.find?_cons, hfb, hb,
      Option.map_some]

theorem find?_enter_of_ne {k' : κ} (hne : k' ≠ k) (l : List α) :
    (enter key k f a l).find? (fun b => key b == k') = l.find? fun b => key b == k' := by
  rw [enter]
  cases h : updateFirst (fun b => key b == k) f l with
  | none =>
    have hskip : (key a == k') = false := by
      rw [ha, beq_eq_false_iff_ne]
      exact Ne.symm hne
    simp only [Option.getD_none, List.find?_cons, hskip]
  | some l' =>
    obtain ⟨pre, b, post, rfl, rfl, hb, -⟩ := updateFirst_some h
    have hkey : key b = k := by simpa using hb
    have hskip : (key b == k') = false := by
      rw [hkey, beq_eq_false_iff_ne]
      exact Ne.symm hne
    simp only [Option.getD_some, List.find?_append, List.find?_cons, hf, hskip]

theorem mem_enter_of_ne {b : α} (hne : key b ≠ k) (l : List α) : b ∈ enter key k f a l ↔ b ∈ l := by
  rw [enter]
  cases h : updateFirst (fun b => key b == k) f l with
  | none =>
    rw [Option.getD_none, List.mem_cons]
    refine or_iff_right ?_
    rintro rfl
    exact hne ha
  | some l' =>
    obtain ⟨pre, c, post, rfl, rfl, hc, -⟩ := updateFirst_some h
    have hkey : key c = k := by simpa using hc
    have hb : b ≠ c := by
      rintro rfl
      exact hne hkey
    have hb' : b ≠ f c := by
      rintro rfl
      exact hne ((hf c).trans hkey)
    simp [hb, hb']

end Chain

section Sound
variable (key : α → κ) (hash : κ → ι)

/-- Every entry is in the chain of its hash value, and no two have one key. -/
structure Sound (t : ι → List α) : Prop where
  hashed : ∀ i, ∀ a ∈ t i, hash (key a) = i
  nodup : ∀ i, ((t i).map key).Nodup

variable {key hash} {t : ι → List α}

theorem Sound.empty : Sound key hash (fun _ : ι => []) :=
  ⟨fun _ _ h => absurd h List.not_mem_nil, fun _ => List.nodup_nil⟩

theorem Sound.nodup_flatMap (h : Sound key hash t) {is : List ι} (his : is.Nodup) :
    ((is.flatMap t).map key).Nodup := by
  rw [List.map_flatMap, List.nodup_flatMap]
  refine ⟨fun i _ => h.nodup i, ?_⟩
  refine his.imp ?_
  intro i j hij k hi hj
  obtain ⟨a, ha, rfl⟩ := List.mem_map.mp hi
  obtain ⟨b, hb, heq⟩ := List.mem_map.mp hj
  have hhash := h.hashed j b hb
  rw [heq, h.hashed i a ha] at hhash
  exact hij hhash

end Sound

section Table
variable [BEq κ] [LawfulBEq κ] [DecidableEq ι] (key : α → κ) (hash : κ → ι)

def find (t : ι → List α) (k : κ) : Option α :=
  (t (hash k)).find? fun b => key b == k

def put (t : ι → List α) (k : κ) (f : α → α) (a : α) : ι → List α :=
  update t (hash k) (enter key k f a (t (hash k)))

variable {key hash} {t : ι → List α} {k : κ} {f : α → α} {a : α}

variable (hf : ∀ b, key (f b) = key b) (ha : key a = k)
include hf ha

theorem mem_put_of_ne {b : α} (hne : key b ≠ k) (i : ι) : b ∈ put key hash t k f a i ↔ b ∈ t i := by
  rw [put]
  by_cases hi : i = hash k
  · subst hi
    rw [update_self, mem_enter_of_ne hf ha hne]
  · rw [update_of_ne hi]

theorem Sound.put (h : Sound key hash t) : Sound key hash (put key hash t k f a) := by
  refine ⟨fun i b hb => ?_, fun i => ?_⟩
  · by_cases hk : key b = k
    · by_cases hi : i = hash k
      · rw [hk, hi]
      · rw [Buckets.put, update_of_ne hi] at hb
        exact h.hashed i b hb
    · exact h.hashed i b ((mem_put_of_ne hf ha hk i).mp hb)
  · rw [Buckets.put]
    by_cases hi : i = hash k
    · subst hi
      rw [update_self]
      exact nodup_enter hf ha (h.nodup _)
    · rw [update_of_ne hi]
      exact h.nodup i

theorem find_put_self : find key hash (put key hash t k f a) k =
    some (((find key hash t k).map f).getD a) := by
  rw [find, put, update_self]
  exact find?_enter_self hf ha _

theorem find_put_of_ne {k' : κ} (hne : k' ≠ k) :
    find key hash (put key hash t k f a) k' = find key hash t k' := by
  rw [find, find, put]
  by_cases hi : hash k' = hash k
  · rw [hi, update_self]
    exact find?_enter_of_ne hf ha hne _
  · rw [update_of_ne hi]

end Table

end Aware.Buckets
