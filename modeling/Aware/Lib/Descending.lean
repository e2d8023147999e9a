import Mathlib.Data.List.Nodup

/-!
# Lists in descending order

A list whose elements have strictly falling lengths: the first hit of a bound is the longest one,
and an element is put in its place unless one of its length is there.
-/
namespace Aware

variable {α : Type*} (len : α → ℕ)

def Descending (as : List α) : Prop :=
  as.Pairwise fun a b => len b < len a

/-- Puts `a` before the first element that is shorter; `same` says what becomes of an element of
the same length. -/
def place (a : α) (same : α → Option α) : List α → Option (List α)
  | [] => some [a]
  | b :: bs =>
    if len a < len b then (place a same bs).map (b :: ·)
    else if len b < len a then some (a :: b :: bs)
    else (same b).map (· :: bs)

theorem mem_of_place {a : α} {same : α → Option α} (hsame : ∀ b, same b = none) {as bs : List α}
    (h : place len a same as = some bs) : a ∈ bs := by
  induction as generalizing bs with
  | nil =>
    cases h
    exact List.mem_singleton_self a
  | cons b as ih =>
    rw [place] at h
    split at h
    · obtain ⟨cs, hcs, rfl⟩ := Option.map_eq_some_iff.mp h
      exact List.mem_cons_of_mem _ (ih hcs)
    · split at h
      · cases h
        exact List.mem_cons_self
      · rw [hsame] at h
        cases h

namespace Descending

variable {len} {as : List α} {a b : α}

theorem unique (h : Descending len as) (ha : a ∈ as) (hb : b ∈ as) (hlen : len a = len b) :
    a = b := by
  have hnodup : (as.map len).Nodup := List.pairwise_map.mpr (h.imp fun hlt => by omega)
  exact List.inj_on_of_nodup_map hnodup ha hb hlen

theorem tail (h : Descending len (a :: as)) : Descending len as :=
  List.Pairwise.of_cons h

theorem lt_of_mem (h : Descending len (a :: as)) (hb : b ∈ as) : len b < len a :=
  List.rel_of_pairwise_cons h hb

theorem le_head (h : Descending len as) (ha : as.head? = some a) (hb : b ∈ as) :
    len b ≤ len a := by
  obtain ⟨bs, rfl⟩ := List.head?_eq_some_iff.mp ha
  rcases List.mem_cons.mp hb with rfl | hb
  · exact Nat.le_refl _
  · exact Nat.le_of_lt (h.lt_of_mem hb)

variable {n : ℕ}

theorem le_of_find? (h : Descending len as)
    (ha : as.find? (fun a => decide (len a ≤ n)) = some a) (hb : b ∈ as) (hn : len b ≤ n) :
    len b ≤ len a := by
  obtain ⟨-, pre, post, rfl, hpre⟩ := List.find?_eq_some_iff_append.mp ha
  have hrest : b ∈ a :: post := by
    rcases List.mem_append.mp hb with hb | hb
    · simpa [hn] using hpre b hb
    · exact hb
  have hdesc : Descending len (a :: post) := (List.pairwise_append.mp h).2.1
  exact hdesc.le_head rfl hrest

theorem find?_eq_some_iff (h : Descending len as) :
    as.find? (fun a => len a == n) = some a ↔ a ∈ as ∧ len a = n := by
  constructor
  · intro ha
    exact ⟨List.mem_of_find?_eq_some ha, by simpa using List.find?_some ha⟩
  · rintro ⟨ha, hn⟩
    cases hb : as.find? fun a => len a == n with
    | none => exact absurd (List.find?_eq_none.mp hb a ha) (by simp [hn])
    | some b =>
      have hlen : len b = n := by simpa using List.find?_some hb
      rw [h.unique (List.mem_of_find?_eq_some hb) ha (hlen.trans hn.symm)]

theorem mem_dropWhile (h : Descending len as) :
    a ∈ as.dropWhile (fun a => decide (n < len a)) ↔ a ∈ as ∧ len a ≤ n := by
  induction as with
  | nil => simp
  | cons b bs ih =>
    by_cases hb : n < len b
    · rw [List.dropWhile_cons_of_pos (by simpa using hb), ih h.tail, List.mem_cons]
      refine and_congr_left fun ha => (or_iff_right ?_).symm
      rintro rfl
      omega
    · rw [List.dropWhile_cons_of_neg (by simpa using hb)]
      refine (and_iff_left_of_imp fun ha => ?_).symm
      have := h.le_head rfl ha
      omega

theorem le_of_mem_dropWhile_ne (h : Descending len as) (hb : b ∈ as) (hn : len b = n)
    (ha : a ∈ as.dropWhile fun a => len a != n) : len a ≤ n := by
  induction as with
  | nil => simp at hb
  | cons c cs ih =>
    by_cases hc : len c = n
    · rw [List.dropWhile_cons_of_neg (by simpa using hc)] at ha
      exact hc ▸ h.le_head rfl ha
    · rw [List.dropWhile_cons_of_pos (by simpa using hc)] at ha
      have hb' := (List.mem_cons.mp hb).resolve_left fun heq => hc (heq ▸ hn)
      exact ih h.tail hb' ha

theorem mem_takeWhile (h : Descending len as) :
    a ∈ as.takeWhile (fun a => decide (n < len a)) ↔ a ∈ as ∧ n < len a := by
  induction as with
  | nil => simp
  | cons b bs ih =>
    by_cases hb : n < len b
    · rw [List.takeWhile_cons_of_pos (by simpa using hb), List.mem_cons, ih h.tail, List.mem_cons]
      constructor
      · rintro (rfl | ⟨ha, hn⟩)
        · exact ⟨.inl rfl, hb⟩
        · exact ⟨.inr ha, hn⟩
      · rintro ⟨rfl | ha, hn⟩
        · exact .inl rfl
        · exact .inr ⟨ha, hn⟩
    · rw [List.takeWhile_cons_of_neg (by simpa using hb)]
      refine ⟨fun ha => by simp at ha, fun ⟨ha, hn⟩ => ?_⟩
      have := h.le_head rfl ha
      omega

theorem exists_ne (h : Descending len as) (hlen : 1 < as.length) : ∃ a ∈ as, len a ≠ n := by
  match as, hlen with
  | a :: b :: bs, _ =>
    have hlt := h.lt_of_mem (b := b) (by simp)
    by_cases ha : len a = n
    · exact ⟨b, by simp, by omega⟩
    · exact ⟨a, by simp, ha⟩

theorem mem_eraseP (h : Descending len as) :
    a ∈ as.eraseP (fun a => len a == n) ↔ a ∈ as ∧ len a ≠ n := by
  induction as with
  | nil => simp
  | cons b bs ih =>
    by_cases hb : len b = n
    · rw [List.eraseP_cons_of_pos (by simpa using hb)]
      constructor
      · intro ha
        have := h.lt_of_mem ha
        exact ⟨List.mem_cons_of_mem _ ha, by omega⟩
      · rintro ⟨ha, hn⟩
        exact (List.mem_cons.mp ha).resolve_left fun heq => hn (heq ▸ hb)
    · rw [List.eraseP_cons_of_neg (by simpa using hb), List.mem_cons, ih h.tail, List.mem_cons]
      constructor
      · rintro (rfl | ⟨ha, hn⟩)
        · exact ⟨.inl rfl, hb⟩
        · exact ⟨.inr ha, hn⟩
      · rintro ⟨rfl | ha, hn⟩
        · exact .inl rfl
        · exact .inr ⟨ha, hn⟩

theorem find?_eraseP {m : ℕ} (h : Descending len as) :
    (as.eraseP fun a => len a == m).find? (fun a => len a == n) =
      if n = m then none else as.find? fun a => len a == n := by
  have herased : Descending len (as.eraseP fun a => len a == m) := h.sublist List.eraseP_sublist
  refine Option.ext fun a => ?_
  rw [herased.find?_eq_some_iff, h.mem_eraseP]
  split
  · next hn => simp [hn]
  · next hn =>
      rw [h.find?_eq_some_iff, and_assoc]
      exact and_congr_right fun _ => and_iff_right_of_imp fun ha => ha ▸ hn

theorem place_eq_none (h : Descending len as) {same : α → Option α} (hb : b ∈ as)
    (hlen : len b = len a) (hsame : ∀ b, same b = none) : place len a same as = none := by
  induction as with
  | nil => simp at hb
  | cons c cs ih =>
    rcases List.mem_cons.mp hb with rfl | hb
    · simp [place, hlen, hsame]
    · have hlt := h.lt_of_mem hb
      rw [place, if_pos (by omega), ih h.tail hb]
      rfl

theorem place_eq_some (h : Descending len as) (same : α → Option α)
    (hlen : ∀ b ∈ as, len b ≠ len a) :
    ∃ bs, place len a same as = some bs ∧ Descending len bs ∧ ∀ b, b ∈ bs ↔ b = a ∨ b ∈ as := by
  induction as with
  | nil => exact ⟨[a], rfl, List.pairwise_singleton _ _, by simp⟩
  | cons c cs ih =>
    have hc : len c ≠ len a := hlen c (by simp)
    by_cases hac : len a < len c
    · obtain ⟨bs, hplace, hdesc, hmem⟩ := ih h.tail fun b hb => hlen b (by simp [hb])
      refine ⟨c :: bs, ?_, ?_, ?_⟩
      · rw [place, if_pos hac, hplace]
        rfl
      · refine List.pairwise_cons.mpr ⟨fun b hb => ?_, hdesc⟩
        rcases (hmem b).mp hb with rfl | hb
        · exact hac
        · exact h.lt_of_mem hb
      · intro b
        rw [List.mem_cons, hmem, List.mem_cons, or_left_comm]
    · have hca : len c < len a := by omega
      refine ⟨a :: c :: cs, ?_, ?_, fun b => List.mem_cons⟩
      · rw [place, if_neg hac, if_pos hca]
      · refine List.pairwise_cons.mpr ⟨fun b hb => ?_, h⟩
        rcases List.mem_cons.mp hb with rfl | hb
        · exact hca
        · exact Nat.lt_trans (h.lt_of_mem hb) hca

theorem find?_of_placed {bs : List α} (h : Descending len as) (hbs : Descending len bs)
    (hmem : ∀ b, b ∈ bs ↔ b = a ∨ b ∈ as) :
    bs.find? (fun b => len b == n) = if n = len a then some a else as.find? fun b => len b == n := by
  split
  · next hn => exact hbs.find?_eq_some_iff.mpr ⟨(hmem a).mpr (.inl rfl), hn.symm⟩
  · next hn =>
      refine Option.ext fun b => ?_
      rw [hbs.find?_eq_some_iff, h.find?_eq_some_iff, hmem, or_and_right]
      refine or_iff_right ?_
      rintro ⟨rfl, hb⟩
      exact hn hb.symm

end Descending

end Aware
