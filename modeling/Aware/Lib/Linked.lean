import Mathlib.Data.List.Basic
import Mathlib.Data.List.Nodup
import Mathlib.Logic.Function.Basic
import Mathlib.Tactic.Common

/-!
# Circular lists in both directions

A head, its members in order and the head again, linked by `next`; `prev` leads back from each member.
What `prev` is at the head has no part in it. A family of such lists shares the two maps: unlinking,
putting in front and replacing a member change one of them.
-/
namespace Aware.Linked
open Function

variable {α : Type*} {next prev next' prev' : α → α}

def Path (next prev : α → α) (b : α) : α → List α → Prop
  | a, [] => next a = b
  | a, x :: xs => next a = x ∧ prev x = a ∧ Path next prev b x xs

structure Ring (next prev : α → α) (h : α) (xs : List α) : Prop where
  nodup : (h :: xs).Nodup
  path : Path next prev h h xs

section Paths
variable {a b x y : α} {xs l r : List α}

theorem Path.congr (h : Path next prev b a xs) (hnext : ∀ z ∈ a :: xs, next' z = next z)
    (hprev : ∀ z ∈ xs, prev' z = prev z) : Path next' prev' b a xs := by
  induction xs generalizing a with
  | nil => exact (hnext a List.mem_cons_self).trans h
  | cons x xs ih =>
    obtain ⟨ha, hx, hrest⟩ := h
    refine ⟨(hnext a List.mem_cons_self).trans ha, (hprev x List.mem_cons_self).trans hx, ?_⟩
    exact ih hrest (fun z hz => hnext z (List.mem_cons_of_mem _ hz))
      fun z hz => hprev z (List.mem_cons_of_mem _ hz)

theorem Path.next_first (h : Path next prev b a xs) : next a = xs.headD b := by
  cases xs with
  | nil => exact h
  | cons x xs => exact h.1

theorem Path.next_last (h : Path next prev b a xs) : next (xs.getLastD a) = b := by
  induction xs generalizing a with
  | nil => exact h
  | cons x xs ih =>
    rw [List.getLastD_cons]
    exact ih h.2.2

theorem path_append : Path next prev b a (l ++ r) ↔
    Path next prev (r.headD b) a l ∧ Path next prev b (l.getLastD a) r := by
  induction l generalizing a with
  | nil => exact ⟨fun h => ⟨h.next_first, h⟩, And.right⟩
  | cons y l ih =>
    rw [List.getLastD_cons]
    change (_ ∧ _ ∧ Path next prev b y (l ++ r)) ↔ (_ ∧ _ ∧ _) ∧ _
    rw [ih]
    simp only [and_assoc]

theorem Path.retarget (h : Path next prev b a xs) (hlast : next' (xs.getLastD a) = y)
    (hnext : ∀ z ∈ a :: xs, z ≠ xs.getLastD a → next' z = next z)
    (hprev : ∀ z ∈ xs, prev' z = prev z) (hnodup : (a :: xs).Nodup) : Path next' prev' y a xs := by
  induction xs generalizing a with
  | nil => exact hlast
  | cons x xs ih =>
    obtain ⟨ha, hx, hrest⟩ := h
    rw [List.getLastD_cons] at hlast hnext
    have hne : a ≠ xs.getLastD x := by
      intro heq
      apply (List.nodup_cons.mp hnodup).1
      rw [heq]
      cases xs with
      | nil => exact List.mem_cons_self
      | cons z xs =>
        rw [List.getLastD_cons]
        exact List.mem_cons_of_mem _ (List.getLastD_mem_cons ..)
    refine ⟨(hnext a List.mem_cons_self hne).trans ha, (hprev x List.mem_cons_self).trans hx, ?_⟩
    exact ih hrest hlast (fun z hz => hnext z (List.mem_cons_of_mem _ hz))
      (fun z hz => hprev z (List.mem_cons_of_mem _ hz)) (List.nodup_cons.mp hnodup).2

theorem Path.restart (h : Path next prev b a xs) (hfirst : next' y = next a)
    (hback : ∀ z, xs.head? = some z → prev' z = y) (hnext : ∀ z ∈ xs, next' z = next z)
    (hprev : ∀ z ∈ xs.tail, prev' z = prev z) : Path next' prev' b y xs := by
  cases xs with
  | nil => exact hfirst.trans h
  | cons x xs => exact ⟨hfirst.trans h.1, hback x rfl, h.2.2.congr hnext hprev⟩

theorem Path.splice {e : α} {m m' : List α} (h : Path next prev e e (l ++ (m ++ r)))
    (hnodup : (e :: (l ++ r)).Nodup) (hmid : Path next' prev' (r.headD e) (l.getLastD e) m')
    (hback : prev' (r.headD e) = m'.getLastD (l.getLastD e))
    (hnext : ∀ z ∈ e :: (l ++ r), z ≠ l.getLastD e → next' z = next z)
    (hprev : ∀ z ∈ l ++ r, z ≠ r.headD e → prev' z = prev z) : Path next' prev' e e (l ++ (m' ++ r)) := by
  obtain ⟨hl, hrest⟩ := path_append.mp h
  have hr := (path_append.mp hrest).2
  have hhead : (m' ++ r).headD e = m'.headD (r.headD e) := by cases m' <;> rfl
  obtain ⟨hfront, hbehind, hapart⟩ := List.nodup_append.mp (List.cons_append ▸ hnodup)
  refine path_append.mpr ⟨hl.retarget ?_ (fun z hz => ?_) (fun z hz => ?_) hfront,
    path_append.mpr ⟨hmid, hr.restart ?_ (fun z hz => ?_) (fun z hz => ?_) fun z hz => ?_⟩⟩
  · rw [hhead]
    exact hmid.next_first
  · exact hnext z (List.mem_append_left r hz)
  · refine hprev z (List.mem_append_left r hz) ?_
    cases r with
    | nil =>
      rintro rfl
      exact (List.nodup_cons.mp hfront).1 hz
    | cons w r => exact hapart z (List.mem_cons_of_mem _ hz) w List.mem_cons_self
  · rw [hmid.next_last, hr.next_first]
  · rw [← hback, List.headD_eq_head?_getD, hz]
    rfl
  · refine hnext z (List.mem_append_right (e :: l) hz) ?_
    exact (hapart _ (List.getLastD_mem_cons ..) z hz).symm
  · refine hprev z (List.mem_append_right l (List.mem_of_mem_tail hz)) ?_
    cases r with
    | nil => cases hz
    | cons w r =>
      rintro rfl
      exact (List.nodup_cons.mp hbehind).1 hz

end Paths

/-- Lists with different heads and no common member. -/
structure Rings (heads : α → Prop) (next prev : α → α) (xs : α → List α) : Prop where
  ring : ∀ h, heads h → Ring next prev h (xs h)
  apart : ∀ h h' a, heads h → heads h' → a ∈ xs h → a ∈ xs h' → h = h'
  inner : ∀ h a, heads h → a ∈ xs h → ¬ heads a

namespace Rings
variable {heads : α → Prop} {xs : α → List α} {e e' x y a : α}

theorem congr (h : Rings heads next prev xs)
    (hnext : ∀ e, heads e → ∀ z ∈ e :: xs e, next' z = next z)
    (hprev : ∀ e, heads e → ∀ z ∈ xs e, prev' z = prev z) : Rings heads next' prev' xs := by
  refine ⟨fun e he => ⟨(h.ring e he).nodup, ?_⟩, h.apart, h.inner⟩
  exact (h.ring e he).path.congr (hnext e he) (hprev e he)

theorem off_ring (h : Rings heads next prev xs) (he : heads e) (he' : heads e') (hne : e' ≠ e)
    (ha : a ∈ e' :: xs e') : a ∉ e :: xs e := by
  intro hmem
  rcases List.mem_cons.mp ha with rfl | ha <;> rcases List.mem_cons.mp hmem with rfl | hmem
  · exact hne rfl
  · exact h.inner e _ he hmem he'
  · exact h.inner e' _ he' ha he
  · exact hne (h.apart e' e a he' he ha hmem)

theorem next_head (h : Rings heads next prev xs) (he : heads e) : next e = (xs e).headD e :=
  (h.ring e he).path.next_first

theorem split (h : Rings heads next prev xs) (he : heads e) (hx : x ∈ xs e) :
    ∃ l r, xs e = l ++ ([x] ++ r) ∧ prev x = l.getLastD e ∧ next x = r.headD e ∧
      (e :: (l ++ x :: r)).Nodup := by
  obtain ⟨l, r, hxs⟩ := List.append_of_mem hx
  have hring := h.ring e he
  rw [hxs] at hring
  obtain ⟨-, -, hprev, hr⟩ := path_append.mp hring.path
  exact ⟨l, r, hxs, hprev, hr.next_first, hring.nodup⟩

theorem prev_mem (h : Rings heads next prev xs) (he : heads e) (hx : x ∈ xs e) :
    prev x ∈ e :: xs e ∧ prev x ≠ x := by
  obtain ⟨l, r, hxs, hprev, -, hnodup⟩ := h.split he hx
  have hmem : prev x ∈ e :: l := by
    rw [hprev]
    exact List.getLastD_mem_cons ..
  have hsub : prev x ∈ e :: (l ++ x :: r) := by
    rw [← List.cons_append]
    exact List.mem_append_left _ hmem
  refine ⟨hxs ▸ hsub, fun heq => ?_⟩
  rw [heq] at hmem
  rw [← List.cons_append] at hnodup
  exact List.disjoint_of_nodup_append hnodup hmem List.mem_cons_self

theorem next_mem (h : Rings heads next prev xs) (he : heads e) (hx : x ∈ xs e) :
    next x ∈ e :: xs e ∧ next x ≠ x := by
  obtain ⟨l, r, hxs, -, hnext, hnodup⟩ := h.split he hx
  rw [hxs, hnext]
  have hxe : x ≠ e := by
    rintro rfl
    exact (List.nodup_cons.mp hnodup).1 (by simp)
  cases r with
  | nil => exact ⟨List.mem_cons_self, hxe.symm⟩
  | cons z r =>
    refine ⟨by simp, ?_⟩
    rintro rfl
    have hsuffix := (List.nodup_append.mp (List.nodup_cons.mp hnodup).2).2.1
    exact (List.nodup_cons.mp hsuffix).1 List.mem_cons_self

variable [DecidableEq α]

theorem exchange (h : Rings heads next prev xs) (he : heads e) {ys : List α}
    (hring : Ring next' prev' e ys)
    (hmem : ∀ a ∈ ys, a ∈ xs e ∨ ¬ heads a ∧ ∀ e', heads e' → a ∉ xs e')
    (hnext : ∀ z, next' z ≠ next z → z ∈ e :: ys ∨ z ∈ xs e)
    (hprev : ∀ z, prev' z ≠ prev z → z ∈ e :: ys ∨ z ∈ xs e) :
    Rings heads next' prev' (update xs e ys) := by
  -- a cell of another list is none of the new list
  have hother : ∀ e', heads e' → e' ≠ e → ∀ z ∈ e' :: xs e', ¬ (z ∈ e :: ys ∨ z ∈ xs e) := by
    intro e' he' hne z hz hbad
    have hoff := h.off_ring he he' hne hz
    rcases hbad with hbad | hbad
    · rcases List.mem_cons.mp hbad with rfl | hbad
      · exact hoff List.mem_cons_self
      · rcases hmem z hbad with hold | ⟨hhead, hnone⟩
        · exact hoff (List.mem_cons_of_mem _ hold)
        · rcases List.mem_cons.mp hz with rfl | hz
          · exact hhead he'
          · exact hnone e' he' hz
    · exact hoff (List.mem_cons_of_mem _ hbad)
  refine ⟨fun e' he' => ?_, fun e₁ e₂ a he₁ he₂ ha₁ ha₂ => ?_, fun e' a he' ha => ?_⟩
  · by_cases hne : e' = e
    · rw [hne, update_self]
      exact hring
    · rw [update_of_ne hne]
      refine ⟨(h.ring e' he').nodup, (h.ring e' he').path.congr (fun z hz => ?_) fun z hz => ?_⟩
      · by_contra hdiff
        exact hother e' he' hne z hz (hnext z hdiff)
      · by_contra hdiff
        exact hother e' he' hne z (List.mem_cons_of_mem _ hz) (hprev z hdiff)
  · by_cases h₁ : e₁ = e <;> by_cases h₂ : e₂ = e
    · rw [h₁, h₂]
    · rw [h₁, update_self] at ha₁
      rw [update_of_ne h₂] at ha₂
      exact absurd (.inl (List.mem_cons_of_mem _ ha₁)) (hother e₂ he₂ h₂ a (List.mem_cons_of_mem _ ha₂))
    · rw [update_of_ne h₁] at ha₁
      rw [h₂, update_self] at ha₂
      exact absurd (.inl (List.mem_cons_of_mem _ ha₂)) (hother e₁ he₁ h₁ a (List.mem_cons_of_mem _ ha₁))
    · rw [update_of_ne h₁] at ha₁
      rw [update_of_ne h₂] at ha₂
      exact h.apart e₁ e₂ a he₁ he₂ ha₁ ha₂
  · by_cases hne : e' = e
    · rw [hne, update_self] at ha
      exact (hmem a ha).elim (h.inner e a he) And.left
    · rw [update_of_ne hne] at ha
      exact h.inner e' a he' ha

theorem splice (h : Rings heads next prev xs) (he : heads e) {l m m' r : List α}
    (hxs : xs e = l ++ (m ++ r)) (hm : m'.Nodup)
    (hnew : ∀ a ∈ m', ¬ heads a ∧ ∀ e', heads e' → a ∉ xs e')
    (hmid : Path next' prev' (r.headD e) (l.getLastD e) m')
    (hback : prev' (r.headD e) = m'.getLastD (l.getLastD e))
    (hnext : ∀ z, z ≠ l.getLastD e → z ∉ m' → next' z = next z)
    (hprev : ∀ z, z ≠ r.headD e → z ∉ m' → prev' z = prev z) :
    Rings heads next' prev' (update xs e (l ++ (m' ++ r))) := by
  have hring := h.ring e he
  rw [hxs] at hring
  have hsub : List.Sublist (e :: (l ++ r)) (e :: (l ++ (m ++ r))) :=
    ((List.sublist_append_right m r).append_left l).cons_cons e
  have hin : ∀ a ∈ e :: (l ++ r), a ∈ e :: xs e := fun a ha => hxs ▸ hsub.subset ha
  have hout : ∀ a ∈ e :: (l ++ r), a ∉ m' := by
    intro a ha hbad
    rcases List.mem_cons.mp (hin a ha) with rfl | hold
    · exact (hnew _ hbad).1 he
    · exact (hnew a hbad).2 e he hold
  have hperm : (e :: (l ++ (m' ++ r))).Perm (m' ++ e :: (l ++ r)) :=
    List.perm_append_comm_assoc (e :: l) m' r
  have hfront : l.getLastD e ∈ e :: (l ++ r) := List.mem_append_left r List.getLastD_mem_cons
  have hbehind : r.headD e ∈ e :: (l ++ r) := by
    cases r with
    | nil => exact List.mem_cons_self
    | cons w r => exact List.mem_append_right (e :: l) List.mem_cons_self
  -- what a changed link belongs to
  have hchanged : ∀ z, z ∈ e :: (l ++ r) ∨ z ∈ m' → z ∈ e :: (l ++ (m' ++ r)) ∨ z ∈ xs e :=
    fun z hz => .inl (hperm.mem_iff.mpr (List.mem_append.mpr hz.symm))
  have hnodup := hperm.nodup_iff.mpr (List.nodup_append.mpr
    ⟨hm, hsub.nodup hring.nodup, fun a ha b hb heq => hout b hb (heq ▸ ha)⟩)
  refine h.exchange he ⟨hnodup, hring.path.splice (hsub.nodup hring.nodup) hmid hback (fun z hz hne => ?_)
    fun z hz hne => ?_⟩ (fun a ha => ?_) (fun z hz => hchanged z ?_) fun z hz => hchanged z ?_
  · exact hnext z hne (hout z hz)
  · exact hprev z hne (hout z (List.mem_cons_of_mem _ hz))
  · rcases List.mem_append.mp (hperm.subset (List.mem_cons_of_mem _ ha)) with hfresh | hold
    · exact .inr (hnew a hfresh)
    · refine .inl ((List.mem_cons.mp (hin a hold)).resolve_left ?_)
      rintro rfl
      exact (List.nodup_cons.mp hnodup).1 ha
  · by_contra! hnot
    exact hz (hnext z (fun heq => hnot.1 (heq ▸ hfront)) hnot.2)
  · by_contra! hnot
    exact hz (hprev z (fun heq => hnot.1 (heq ▸ hbehind)) hnot.2)

omit [DecidableEq α] in
theorem mem_without {l r : List α} (h : (e :: (l ++ x :: r)).Nodup) :
    a ∈ l ++ r ↔ a ∈ l ++ x :: r ∧ a ≠ x := by
  have hx := (List.nodup_cons.mp (List.nodup_middle.mp (List.nodup_cons.mp h).2)).1
  constructor
  · intro ha
    refine ⟨List.perm_middle.mem_iff.mpr (List.mem_cons_of_mem _ ha), ?_⟩
    rintro rfl
    exact hx ha
  · rintro ⟨ha, hne⟩
    exact (List.mem_cons.mp (List.perm_middle.mem_iff.mp ha)).resolve_left hne

theorem unlink (h : Rings heads next prev xs) (he : heads e) (hx : x ∈ xs e) :
    ∃ ys, Rings heads (update next (prev x) (next x)) (update prev (next x) (prev x))
        (update xs e ys) ∧ ∀ a, a ∈ ys ↔ a ∈ xs e ∧ a ≠ x := by
  obtain ⟨l, r, hxs, hpv, hnx, hnodup⟩ := h.split he hx
  refine ⟨l ++ ([] ++ r), h.splice he hxs List.nodup_nil ?_ ?_ ?_ ?_ ?_, fun a => ?_⟩
  · intro a ha
    cases ha
  · rw [← hpv, ← hnx]
    exact update_self ..
  · rw [← hpv, ← hnx]
    exact update_self ..
  · intro z hz _
    exact update_of_ne (hpv ▸ hz) ..
  · intro z hz _
    exact update_of_ne (hnx ▸ hz) ..
  · rw [hxs]
    exact mem_without hnodup

theorem push (h : Rings heads next prev xs) (he : heads e) (hx : ¬ heads x)
    (hnew : ∀ e', heads e' → x ∉ xs e') :
    Rings heads (update (update next x (next e)) e x)
      (update (update prev x e) (next e) x) (update xs e (x :: xs e)) := by
  have hhead := h.next_head he
  have hxe : x ≠ e := by
    rintro rfl
    exact hx he
  have hxfirst : x ≠ next e := by
    rw [hhead]
    intro heq
    cases hxs : xs e with
    | nil => exact hxe (heq.trans (by rw [hxs]; rfl))
    | cons w ws => exact hnew e he (heq ▸ hxs ▸ List.mem_cons_self)
  have hxs : xs e = [] ++ ([] ++ xs e) := rfl
  refine h.splice he hxs (List.nodup_singleton x) ?_ ⟨?_, ?_, ?_⟩ ?_ ?_ ?_
  · intro a ha
    rw [List.mem_singleton.mp ha]
    exact ⟨hx, hnew⟩
  · exact update_self ..
  · rw [update_of_ne hxfirst, update_self]
    rfl
  · change update (update next x (next e)) e x x = (xs e).headD e
    rw [update_of_ne hxe, update_self, hhead]
  · rw [← hhead]
    exact update_self ..
  · intro z hz hzx
    rw [update_of_ne (show z ≠ e from hz), update_of_ne (List.ne_of_not_mem_cons hzx)]
  · intro z hz hzx
    rw [update_of_ne (hhead ▸ hz), update_of_ne (List.ne_of_not_mem_cons hzx)]

theorem swap (h : Rings heads next prev xs) (he : heads e) (hx : x ∈ xs e) (hy : ¬ heads y)
    (hnew : ∀ e', heads e' → y ∉ xs e') :
    ∃ ys, Rings heads (update (update next y (next x)) (prev x) y)
        (update (update prev y (prev x)) (next x) y) (update xs e ys) ∧
      ∀ a, a ∈ ys ↔ a = y ∨ a ∈ xs e ∧ a ≠ x := by
  obtain ⟨l, r, hxs, hpv, hnx, hnodup⟩ := h.split he hx
  have hye : ∀ a ∈ e :: xs e, y ≠ a := by
    rintro a ha rfl
    rcases List.mem_cons.mp ha with rfl | ha
    · exact hy he
    · exact hnew e he ha
  have hyp := hye _ (h.prev_mem he hx).1
  have hyn := hye _ (h.next_mem he hx).1
  refine ⟨l ++ ([y] ++ r), h.splice he hxs (List.nodup_singleton y) ?_ ⟨?_, ?_, ?_⟩ ?_ ?_ ?_, fun a => ?_⟩
  · intro a ha
    rw [List.mem_singleton.mp ha]
    exact ⟨hy, hnew⟩
  · rw [← hpv, update_self]
  · rw [update_of_ne hyn, update_self, hpv]
  · change update (update next y (next x)) (prev x) y y = r.headD e
    rw [update_of_ne hyp, update_self, hnx]
  · rw [← hnx]
    exact update_self ..
  · intro z hz hzy
    rw [update_of_ne (hpv ▸ hz), update_of_ne (List.ne_of_not_mem_cons hzy)]
  · intro z hz hzy
    rw [update_of_ne (hnx ▸ hz), update_of_ne (List.ne_of_not_mem_cons hzy)]
  · change a ∈ l ++ y :: r ↔ _
    rw [hxs, List.perm_middle.mem_iff, List.mem_cons]
    exact or_congr_right (mem_without hnodup)

end Rings

end Aware.Linked
