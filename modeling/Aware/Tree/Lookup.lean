import Aware.Tree.Insert

/-!
# Lookups in the tree

`al_rbtree_lookup` goes down one path. In a tree that is in the order of its keys it finds the node of
a key; in any tree it stays among the nodes.
-/
namespace Aware.Tree
open RedBlack hiding Tree
open RedBlack.Tree (leaf)

section Descent
variable {m : Mem} {t : Nodes} {z : List (Frame Ptr)} {k : UInt64} {fuel : ℕ}

theorem lookupFrom_holds (h : Holds m (plug z t)) (hfuel : t.inorder.length < fuel) :
    ∃ found, lookupFrom fuel (ptr m t) k m = some found ∧
      (∀ p, found = some p → p ∈ t.inorder ∧ m.key p = k) ∧
      (Ascending m t → ∀ p ∈ t.inorder, m.key p = k → found = some p) := by
  induction fuel generalizing z t with
  | zero => exact absurd hfuel (Nat.not_lt_zero _)
  | succ fuel ih =>
    cases t with
    | leaf =>
      refine ⟨none, if_pos rfl, fun p hp => (by cases hp), fun _ p hp => ?_⟩
      cases hp
    | node c l x r =>
      have hleft : Holds m (plug (⟨.left, c, x, r⟩ :: z) l) := h
      have hright : Holds m (plug (⟨.right, c, x, l⟩ :: z) r) := h
      have hkey : m.keyOf x = some (m.key x) := read_live m m.key h.ptr_live
      have hroot := mt h.ptr_eq_sentinel.mp (by simp)
      simp only [RedBlack.Tree.inorder, List.length_append, List.length_cons] at hfuel
      -- the nodes on one side of the key
      have hmem : ∀ q, q ∈ (RedBlack.Tree.node c l x r).inorder ↔
          q ∈ l.inorder ∨ q = x ∨ q ∈ r.inorder := by
        intro q
        rw [RedBlack.Tree.inorder, List.mem_append, List.mem_cons]
      have hsides : Ascending m (.node c l x r) → Ascending m l ∧ Ascending m r ∧
          (∀ q ∈ l.inorder, m.key q < m.key x) ∧ ∀ q ∈ r.inorder, m.key x < m.key q := by
        intro hasc
        obtain ⟨hl, hxr, hlt⟩ := List.pairwise_append.mp hasc
        obtain ⟨hx, hr⟩ := List.pairwise_cons.mp hxr
        exact ⟨hl, hr, fun q hq => hlt q hq x List.mem_cons_self, hx⟩
      by_cases hlow : k < m.key x
      · obtain ⟨found, hfound, hin, hall⟩ := ih hleft (by omega)
        refine ⟨found, ?_, fun p hp => ⟨(hmem p).mpr (.inl (hin p hp).1), (hin p hp).2⟩, ?_⟩
        · rw [lookupFrom, if_neg hroot]
          refine and_then hkey ?_
          rw [if_pos hlow]
          exact and_then (Holds.childOf (d := .left) h) hfound
        · intro hasc q hq hqk
          obtain ⟨hl, -, -, hx⟩ := hsides hasc
          rcases (hmem q).mp hq with hql | rfl | hqr
          · exact hall hl q hql hqk
          · exact absurd (hqk ▸ hlow) (UInt64.lt_irrefl _)
          · exact absurd (UInt64.lt_trans hlow (hqk ▸ hx q hqr)) (UInt64.lt_irrefl _)
      · by_cases hhigh : m.key x < k
        · obtain ⟨found, hfound, hin, hall⟩ := ih hright (by omega)
          refine ⟨found, ?_, fun p hp => ⟨(hmem p).mpr (.inr (.inr (hin p hp).1)), (hin p hp).2⟩, ?_⟩
          · rw [lookupFrom, if_neg hroot]
            refine and_then hkey ?_
            rw [if_neg hlow, if_pos hhigh]
            exact and_then (Holds.childOf_other (d := .left) h) hfound
          · intro hasc q hq hqk
            obtain ⟨-, hr, hlt, -⟩ := hsides hasc
            rcases (hmem q).mp hq with hql | rfl | hqr
            · exact absurd (UInt64.lt_trans hhigh (hqk ▸ hlt q hql)) (UInt64.lt_irrefl _)
            · exact absurd (hqk ▸ hhigh) (UInt64.lt_irrefl _)
            · exact hall hr q hqr hqk
        · have heq : m.key x = k :=
            UInt64.le_antisymm (UInt64.not_lt.mp hlow) (UInt64.not_lt.mp hhigh)
          refine ⟨some x, ?_, fun p hp => ?_, ?_⟩
          · rw [lookupFrom, if_neg hroot]
            refine and_then hkey ?_
            rw [if_neg hlow, if_neg hhigh]
            rfl
          · cases hp
            exact ⟨(hmem x).mpr (.inr (.inl rfl)), heq⟩
          · intro hasc q hq hqk
            obtain ⟨-, -, hlt, hx⟩ := hsides hasc
            rcases (hmem q).mp hq with hql | rfl | hqr
            · have := hlt q hql
              rw [hqk, heq] at this
              exact absurd this (UInt64.lt_irrefl _)
            · rfl
            · have := hx q hqr
              rw [hqk, heq] at this
              exact absurd this (UInt64.lt_irrefl _)

theorem lookupFrom_eq (h : Holds m (plug z t)) (hasc : Ascending m t)
    (hfuel : t.inorder.length < fuel) :
    ∃ found, lookupFrom fuel (ptr m t) k m = some found ∧
      ∀ p, found = some p ↔ p ∈ t.inorder ∧ m.key p = k := by
  obtain ⟨found, hfound, hin, hall⟩ := lookupFrom_holds h hfuel
  exact ⟨found, hfound, fun p => ⟨hin p, fun hp => hall hasc p hp.1 hp.2⟩⟩

end Descent

section Outside
variable {m m' : Mem} {t : Nodes} {p : Ptr}

theorem holds_leaf (hroot : m.root = m.sentinel) (hlive : m.live m.sentinel = true)
    (hred : m.red m.sentinel = false) : Holds m .leaf :=
  ⟨hroot, ⟨null, trivial⟩, fun _ ha => (List.not_mem_nil ha).elim, List.Pairwise.nil, List.not_mem_nil,
    hlive, hred⟩

theorem Holds.notMem (h : Holds m t) (hp : m.live p = false) : p ∉ t.inorder ∧ p ≠ m.sentinel := by
  constructor
  · intro hmem
    have hlive := h.live p hmem
    rw [hp] at hlive
    cases hlive
  · intro heq
    have hlive := h.sentinelLive
    rw [← heq, hp] at hlive
    cases hlive

theorem Holds.outside (h : Holds m t) (hp : p ∉ t.inorder ∧ p ≠ m.sentinel) (hroot : m'.root = m.root)
    (hs : m'.sentinel = m.sentinel) (hsame : ∀ a, a ≠ p → SameNode m m' a ∧ m'.live a = m.live a) :
    Holds m' t where
  root := by
    rw [hroot, ptr_congr hs]
    exact h.root
  linked := by
    obtain ⟨up, hlinked⟩ := h.linked
    exact ⟨up, hlinked.congr hs fun a ha => (hsame a (ne_of_mem_of_not_mem ha hp.1)).1⟩
  live a ha := by
    rw [(hsame a (ne_of_mem_of_not_mem ha hp.1)).2]
    exact h.live a ha
  nodup := h.nodup
  away := by
    rw [hs]
    exact h.away
  sentinelLive := by
    rw [hs, (hsame _ hp.2.symm).2]
    exact h.sentinelLive
  sentinelBlack := by
    rw [hs, (hsame _ hp.2.symm).1.2.2]
    exact h.sentinelBlack

end Outside

/-- The memory determines the tree. -/
theorem Linked.unique {m : Mem} {t t' : Nodes} {up up' : Ptr} (h : Linked m up t) (h' : Linked m up' t')
    (hs : m.sentinel ∉ t.inorder) (hs' : m.sentinel ∉ t'.inorder) (hptr : ptr m t = ptr m t') : t = t' := by
  induction t generalizing t' up up' with
  | leaf =>
    cases t' with
    | leaf => rfl
    | node c l x r =>
      have hroot : m.sentinel = x := hptr
      exact absurd (hroot ▸ ptr_mem (m := m) (by simp)) hs'
  | node c l x r ihl ihr =>
    cases t' with
    | leaf =>
      have hroot : x = m.sentinel := hptr
      exact absurd (hroot ▸ ptr_mem (m := m) (by simp)) hs
    | node c' l' x' r' =>
      cases hptr
      obtain ⟨⟨hleft, hright, -, hcolor⟩, hl, hr⟩ := h
      obtain ⟨⟨hleft', hright', -, hcolor'⟩, hl', hr'⟩ := h'
      rw [RedBlack.Tree.inorder, List.mem_append, List.mem_cons, not_or, not_or] at hs hs'
      have hll := ihl hl hl' hs.1 hs'.1 (hleft.symm.trans hleft')
      have hrr := ihr hr hr' hs.2.2 hs'.2.2 (hright.symm.trans hright')
      have hcc : c = c' := by
        have hred := hcolor.symm.trans hcolor'
        cases c <;> cases c' <;> simp_all
      rw [hll, hrr, hcc]

theorem Holds.unique {m : Mem} {t t' : Nodes} (h : Holds m t) (h' : Holds m t') : t = t' := by
  obtain ⟨up, hl⟩ := h.linked
  obtain ⟨up', hl'⟩ := h'.linked
  exact hl.unique hl' h.away h'.away (h.root.symm.trans h'.root)

theorem Ascending.congr {m m' : Mem} {t : Nodes} (h : Ascending m t)
    (hkey : ∀ a ∈ t.inorder, m'.key a = m.key a) : Ascending m' t := by
  refine List.Pairwise.imp_of_mem ?_ h
  intro a b ha hb hab
  rw [hkey a ha, hkey b hb]
  exact hab

theorem Sound.key_inj {m : Mem} {t : Nodes} {p q : Ptr} (h : Sound m t) (hp : p ∈ t.inorder)
    (hq : q ∈ t.inorder) (hkey : m.key p = m.key q) : p = q := by
  have hplace : Holds m (plug [] t) := h.toHolds
  obtain ⟨found, -, hiff⟩ :=
    lookupFrom_eq (k := m.key q) hplace h.ascending (Nat.lt_succ_self t.inorder.length)
  have hfound := (hiff p).mpr ⟨hp, hkey⟩
  rw [(hiff q).mpr ⟨hq, rfl⟩] at hfound
  exact (Option.some.inj hfound).symm

end Aware.Tree
