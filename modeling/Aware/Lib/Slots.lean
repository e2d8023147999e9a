import Mathlib.Data.List.Basic
import Mathlib.Data.List.Find
import Mathlib.Data.List.GetD
import Mathlib.Data.List.Nodup
import Mathlib.Tactic.Common

/-!
Arrays as functions of the index: entries are put, shifted and searched for. An array of keys and an
array of values beside it stand for a map; the first `n` places of both are in use.
-/
namespace Aware.Slots

section Arrays
variable {α : Type*}

def put (a : ℕ → α) (i : ℕ) (x : α) : ℕ → α :=
  fun j => if j = i then x else a j

@[simp] theorem put_self (a : ℕ → α) (i : ℕ) (x : α) : put a i x i = x := if_pos rfl

theorem put_of_ne (a : ℕ → α) {i j : ℕ} (x : α) (h : j ≠ i) : put a i x j = a j := if_neg h

/-- `memmove` of `len` entries within one array. -/
def move (a : ℕ → α) (dst src len : ℕ) : ℕ → α :=
  fun j => if dst ≤ j ∧ j < dst + len then a (src + (j - dst)) else a j

def copy (a : ℕ → α) (dst : ℕ) (b : ℕ → α) (src len : ℕ) : ℕ → α :=
  fun j => if dst ≤ j ∧ j < dst + len then b (src + (j - dst)) else a j

def openAt (a : ℕ → α) (n idx : ℕ) (x : α) : ℕ → α :=
  put (move a (idx + 1) idx (n - idx)) idx x

def closeAt (a : ℕ → α) (n pos : ℕ) : ℕ → α :=
  move a pos (pos + 1) (n - 1 - pos)

variable {a : ℕ → α} {n idx pos i : ℕ} {x : α}

theorem openAt_before (h : i < idx) : openAt a n idx x i = a i := by
  rw [openAt, put_of_ne _ _ (Nat.ne_of_lt h), move, if_neg (by omega)]

theorem openAt_at : openAt a n idx x idx = x :=
  put_self ..

theorem openAt_after (h : idx ≤ i) (hn : i < n) : openAt a n idx x (i + 1) = a i := by
  rw [openAt, put_of_ne _ _ (by omega), move, if_pos (by omega)]
  congr 1
  omega

theorem closeAt_before (h : i < pos) : closeAt a n pos i = a i := by
  rw [closeAt, move, if_neg (by omega)]

theorem closeAt_after (h : pos ≤ i) (hn : i + 1 < n) : closeAt a n pos i = a (i + 1) := by
  rw [closeAt, move, if_pos (by omega)]
  congr 1
  omega

def ofList (l : List α) (x : α) : ℕ → α :=
  fun i => l.getD i x

end Arrays

section Differences
variable {α : Type*} [DecidableEq α]

def firstDiff (a b : ℕ → α) : ℕ → ℕ → ℕ
  | i, 0 => i
  | i, k + 1 => if a i ≠ b i then i else firstDiff a b (i + 1) k

variable {a b : ℕ → α} {r k : ℕ}

theorem firstDiff_eq {i : ℕ} (hi : i ≤ r) (hr : r ≤ i + k) (hsame : ∀ j, i ≤ j → j < r → a j = b j)
    (hdiff : r < i + k → a r ≠ b r) : firstDiff a b i k = r := by
  induction k generalizing i with
  | zero =>
    rw [firstDiff]
    omega
  | succ k ih =>
    rw [firstDiff]
    by_cases hir : i = r
    · subst hir
      exact if_pos (hdiff (by omega))
    · rw [if_neg (not_not_intro (hsame i (Nat.le_refl i) (by omega)))]
      exact ih (by omega) (by omega) (fun j hj => hsame j (by omega)) fun h => hdiff (by omega)

theorem le_firstDiff {i : ℕ} (hr : r ≤ i + k) (hsame : ∀ j, i ≤ j → j < r → a j = b j) :
    r ≤ firstDiff a b i k := by
  induction k generalizing i with
  | zero =>
    rw [firstDiff]
    omega
  | succ k ih =>
    rw [firstDiff]
    split
    · next hne =>
        by_contra hlt
        exact hne (hsame i (Nat.le_refl i) (by omega))
    · exact ih (by omega) fun j hj => hsame j (by omega)

end Differences

section Keyed
variable {κ α : Type*} {keys : ℕ → κ} {vals : ℕ → α} {n idx pos : ℕ} {c c' : κ} {x y : α}

def Distinct (keys : ℕ → κ) (n : ℕ) : Prop :=
  ∀ i j, i < n → j < n → keys i = keys j → i = j

def Beside (keys : ℕ → κ) (vals : ℕ → α) (n : ℕ) (c : κ) (x : α) : Prop :=
  ∃ i, i < n ∧ keys i = c ∧ vals i = x

theorem distinct_openAt (hd : Distinct keys n) (hidx : idx ≤ n) (hnew : ∀ i < n, keys i ≠ c) :
    Distinct (openAt keys n idx c) (n + 1) := by
  -- every place but `idx` has the key of an old place
  have hold : ∀ i, i < n + 1 → i ≠ idx →
      ∃ k, k < n ∧ openAt keys n idx c i = keys k ∧ i = if k < idx then k else k + 1 := by
    intro i hi hne
    by_cases hlt : i < idx
    · exact ⟨i, by omega, openAt_before hlt, (if_pos hlt).symm⟩
    · obtain ⟨k, rfl⟩ : ∃ k, i = k + 1 := ⟨i - 1, by omega⟩
      exact ⟨k, by omega, openAt_after (by omega) (by omega), (if_neg (by omega)).symm⟩
  intro i j hi hj heq
  by_cases hii : i = idx <;> by_cases hjj : j = idx
  · rw [hii, hjj]
  · obtain ⟨k, hk, hkey, -⟩ := hold j hj hjj
    rw [hii, openAt_at, hkey] at heq
    exact absurd heq.symm (hnew k hk)
  · obtain ⟨k, hk, hkey, -⟩ := hold i hi hii
    rw [hjj, openAt_at, hkey] at heq
    exact absurd heq (hnew k hk)
  · obtain ⟨k, hk, hkey, hik⟩ := hold i hi hii
    obtain ⟨k', hk', hkey', hjk⟩ := hold j hj hjj
    rw [hkey, hkey'] at heq
    rw [hik, hjk, hd k k' hk hk' heq]

theorem beside_openAt (hidx : idx ≤ n) :
    Beside (openAt keys n idx c) (openAt vals n idx x) (n + 1) c' y ↔
      (c' = c ∧ y = x) ∨ Beside keys vals n c' y := by
  constructor
  · rintro ⟨i, hi, hc, hy⟩
    rcases Nat.lt_trichotomy i idx with hlt | rfl | hgt
    · rw [openAt_before hlt] at hc hy
      exact .inr ⟨i, by omega, hc, hy⟩
    · rw [openAt_at] at hc hy
      exact .inl ⟨hc.symm, hy.symm⟩
    · obtain ⟨k, rfl⟩ : ∃ k, i = k + 1 := ⟨i - 1, by omega⟩
      rw [openAt_after (by omega) (by omega)] at hc hy
      exact .inr ⟨k, by omega, hc, hy⟩
  · rintro (⟨rfl, rfl⟩ | ⟨i, hi, hc, hy⟩)
    · exact ⟨idx, by omega, openAt_at, openAt_at⟩
    · by_cases hlt : i < idx
      · exact ⟨i, by omega, (openAt_before hlt).trans hc, (openAt_before hlt).trans hy⟩
      · exact ⟨i + 1, by omega, (openAt_after (by omega) hi).trans hc,
          (openAt_after (by omega) hi).trans hy⟩

variable {i : ℕ} {l : List κ}

theorem closeAt_place {β : Type*} (a : ℕ → β) (hi : i < n - 1) :
    closeAt a n pos i = a (if i < pos then i else i + 1) := by
  split
  · next h => exact closeAt_before h
  · exact closeAt_after (by omega) (by omega)

theorem distinct_closeAt (hd : Distinct keys n) : Distinct (closeAt keys n pos) (n - 1) := by
  intro i j hi hj heq
  rw [closeAt_place keys hi, closeAt_place keys hj] at heq
  have := hd _ _ (by split <;> omega) (by split <;> omega) heq
  split at this <;> split at this <;> omega

theorem beside_closeAt (hd : Distinct keys n) (hpos : pos < n) :
    Beside (closeAt keys n pos) (closeAt vals n pos) (n - 1) c' y ↔
      c' ≠ keys pos ∧ Beside keys vals n c' y := by
  constructor
  · rintro ⟨i, hi, hc, hy⟩
    rw [closeAt_place _ hi] at hc hy
    have hk : (if i < pos then i else i + 1) < n := by
      split <;> omega
    refine ⟨?_, _, hk, hc, hy⟩
    rintro rfl
    have := hd _ _ hk hpos hc
    split at this <;> omega
  · rintro ⟨hne, i, hi, hc, hy⟩
    have hip : i ≠ pos := by
      rintro rfl
      exact hne hc.symm
    obtain ⟨k, hk, hki⟩ : ∃ k, k < n - 1 ∧ (if k < pos then k else k + 1) = i := by
      by_cases hlt : i < pos
      · exact ⟨i, by omega, if_pos hlt⟩
      · exact ⟨i - 1, by omega, (if_neg (by omega)).trans (by omega)⟩
    refine ⟨k, hk, ?_, ?_⟩
    · rw [closeAt_place _ hk, hki]
      exact hc
    · rw [closeAt_place _ hk, hki]
      exact hy

theorem Distinct.congr {keys' : ℕ → κ} (hd : Distinct keys n) (h : ∀ i < n, keys' i = keys i) :
    Distinct keys' n := by
  intro i j hi hj heq
  rw [h i hi, h j hj] at heq
  exact hd i j hi hj heq

theorem ofList_of_lt (hi : i < l.length) (x : κ) : ofList l x i = l[i] :=
  List.getD_eq_getElem _ _ hi

theorem ofList_of_le (hi : l.length ≤ i) (x : κ) : ofList l x i = x :=
  List.getD_eq_default _ _ hi

theorem distinct_ofList (hl : l.Nodup) (x : κ) : Distinct (ofList l x) l.length := by
  intro i j hi hj heq
  rw [ofList_of_lt hi, ofList_of_lt hj] at heq
  exact (hl.getElem_inj_iff).mp heq

theorem beside_ofList {γ : Type*} {l : List γ} {f : γ → κ} {g : γ → α} (k : κ) (v : α) :
    Beside (ofList (l.map f) k) (ofList (l.map g) v) l.length c x ↔ ∃ b ∈ l, f b = c ∧ g b = x := by
  constructor
  · rintro ⟨i, hi, hc, hx⟩
    rw [ofList_of_lt (by rwa [List.length_map]), List.getElem_map] at hc hx
    exact ⟨l[i], List.getElem_mem hi, hc, hx⟩
  · rintro ⟨b, hb, hc, hx⟩
    obtain ⟨i, hi, rfl⟩ := List.getElem_of_mem hb
    refine ⟨i, hi, ?_, ?_⟩
    · rwa [ofList_of_lt (by rwa [List.length_map]), List.getElem_map]
    · rwa [ofList_of_lt (by rwa [List.length_map]), List.getElem_map]

end Keyed

section Counting

theorem length_filter_range_succ {test test' : ℕ → Bool} {n a : ℕ} (ha : a < n) (hold : test a = false)
    (h : ∀ i < n, test' i = (decide (i = a) || test i)) :
    ((List.range n).filter test').length = ((List.range n).filter test).length + 1 := by
  have hperm : ((List.range n).filter test').Perm (a :: (List.range n).filter test) := by
    refine (List.perm_ext_iff_of_nodup (List.nodup_range.filter _) ?_).mpr fun i => ?_
    · refine List.nodup_cons.mpr ⟨?_, List.nodup_range.filter _⟩
      simp [hold]
    · rw [List.mem_filter, List.mem_range, List.mem_cons, List.mem_filter, List.mem_range]
      constructor
      · rintro ⟨hi, htest⟩
        rw [h i hi, Bool.or_eq_true, decide_eq_true_eq] at htest
        exact htest.imp_right fun ht => ⟨hi, ht⟩
      · rintro (rfl | ⟨hi, htest⟩)
        · refine ⟨ha, ?_⟩
          rw [h _ ha]
          simp
        · refine ⟨hi, ?_⟩
          rw [h i hi, htest, Bool.or_true]
  exact hperm.length_eq

end Counting

section Search
variable {κ α : Type*} [DecidableEq κ] {keys : ℕ → κ} {vals : ℕ → α} {n : ℕ} {c : κ} {x : α}

def slotOf (keys : ℕ → κ) (n : ℕ) (c : κ) : Option ℕ :=
  (List.range n).find? fun i => keys i == c

variable {i : ℕ}

theorem slotOf_some (h : slotOf keys n c = some i) : i < n ∧ keys i = c := by
  have hmem := List.mem_of_find?_eq_some h
  have hkey := List.find?_some h
  exact ⟨List.mem_range.mp hmem, by simpa using hkey⟩

theorem slotOf_none (h : slotOf keys n c = none) (hi : i < n) : keys i ≠ c := by
  have hkey := List.find?_eq_none.mp h i (List.mem_range.mpr hi)
  simpa using hkey

theorem slotOf_eq (hd : Distinct keys n) (hi : i < n) (hc : keys i = c) :
    slotOf keys n c = some i := by
  cases h : slotOf keys n c with
  | none => exact absurd hc (slotOf_none h hi)
  | some j =>
    obtain ⟨hj, hkey⟩ := slotOf_some h
    rw [hd j i hj hi (hkey.trans hc.symm)]

theorem slotOf_congr {keys' : ℕ → κ} (h : ∀ i < n, keys' i = keys i) :
    slotOf keys' n c = slotOf keys n c := by
  refine List.find?_congr fun i hi => ?_
  rw [h i (List.mem_range.mp hi)]

theorem slotOf_map (hd : Distinct keys n) :
    (slotOf keys n c).map vals = some x ↔ Beside keys vals n c x := by
  rw [Option.map_eq_some_iff]
  constructor
  · rintro ⟨i, hi, hx⟩
    exact ⟨i, (slotOf_some hi).1, (slotOf_some hi).2, hx⟩
  · rintro ⟨i, hi, hc, hx⟩
    exact ⟨i, slotOf_eq hd hi hc, hx⟩

end Search

end Aware.Slots
