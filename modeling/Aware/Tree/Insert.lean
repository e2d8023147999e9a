import Aware.Tree.Links

/-!
# Insertion

`al_rbtree_insert` leaves a red-black tree with the same nodes in the same order and the new one
among them.
-/
namespace Aware.Tree
open RedBlack hiding Tree
open RedBlack.Tree (fork leaf fork_ne_leaf fork_other isRed_paint_black
  paint_black_of_black)

/-- The loops leave a red-black tree with the nodes of `t` in their order. -/
def Rebalanced (m : Mem) (t : Nodes) (m' : Mem) : Prop :=
  Keeps m m' ∧ ∃ t', Holds m' t' ∧ t'.Valid ∧ t'.inorder = t.inorder

theorem Rebalanced.after {m m₁ m' : Mem} {t t₁ : Nodes} (hk : Keeps m m₁)
    (ht : t₁.inorder = t.inorder) (h : Rebalanced m₁ t₁ m') : Rebalanced m t m' := by
  obtain ⟨hk', t', ht', hvalid, horder⟩ := h
  exact ⟨hk.trans hk', t', ht', hvalid, horder.trans ht⟩

section Loop
variable {m : Mem} {t a b : Nodes} {x : Ptr} {d : Side} {c : Color} {z : List (Frame Ptr)} {f g : Frame Ptr}

theorem Holds.blacken (h : Holds m (plug z t)) : ∃ m', m.setRed (ptr m t) false = some m' ∧
    Keeps m m' ∧ Holds m' (plug z (t.paint .black)) :=
  h.paint (c := .black) fun _ => rfl

theorem Holds.paint_fork {k : Color} (h : Holds m (plug z (fork d c a x b))) :
    ∃ m', m.setRed x (decide (k = .red)) = some m' ∧ Keeps m m' ∧ Holds m' (plug z (fork d k a x b)) := by
  obtain ⟨m', hm', hk, h'⟩ := h.paint (c := k) fun hleaf => absurd hleaf fork_ne_leaf
  rw [ptr_fork] at hm'
  rw [RedBlack.Tree.paint_fork] at h'
  exact ⟨m', hm', hk, h'⟩

theorem Holds.blacken_fork (h : Holds m (plug z (fork d c a x b))) :
    ∃ m', m.setRed x false = some m' ∧ Keeps m m' ∧ Holds m' (plug z (fork d .black a x b)) :=
  h.paint_fork (k := .black)

theorem Holds.redden_fork (h : Holds m (plug z (fork d c a x b))) :
    ∃ m', m.setRed x true = some m' ∧ Keeps m m' ∧ Holds m' (plug z (fork d .red a x b)) :=
  h.paint_fork (k := .red)

theorem Holds.parentOf_fork (h : Holds m (plug (f :: z) (fork d c a x b))) :
    m.parentOf x = some f.elem := by
  have hup := h.parentOf fork_ne_leaf
  rwa [ptr_fork] at hup

theorem Holds.isRed_fork (h : Holds m (plug z (fork d c a x b))) :
    m.isRed x = some (decide (c = .red)) := by
  have hred := h.isRed
  rwa [ptr_fork, RedBlack.Tree.isRed_fork] at hred

theorem Holds.isRed_sibling (h : Holds m (plug (f :: z) t)) :
    m.isRed (ptr m f.sibling) = some f.sibling.isRed := by
  rw [plug_sibling] at h
  exact h.isRed

theorem insertLoop_stop (h : Holds m (plug z t)) (ht : t ≠ leaf) (hz : z = [] ∨ TopBlack z)
    (hvalid : ((plug z t).paint .black).Valid) (fuel : ℕ) :
    ∃ m', insertLoop (fuel + 1) (ptr m t) m = some m' ∧ Rebalanced m (plug z t) m' := by
  have hblack : ∃ m', m.setRed m.root false = some m' ∧ Rebalanced m (plug z t) m' := by
    have hwhole : Holds m (plug [] (plug z t)) := h
    obtain ⟨m', hm', hk, hh⟩ := hwhole.blacken
    rw [← h.root] at hm'
    exact ⟨m', hm', hk, _, hh, hvalid, RedBlack.Tree.inorder_paint _ _⟩
  obtain ⟨m', hm', hr⟩ := hblack
  refine ⟨m', ?_, hr⟩
  cases z with
  | nil =>
    rw [insertLoop, if_pos (h.root_eq_iff.mpr rfl)]
    exact hm'
  | cons f z =>
    have htop : f.color = .black := (hz.resolve_left (List.cons_ne_nil f z)).color
    have hup : Holds m (plug z (fork f.side f.color t f.elem f.sibling)) := h
    have hred := hup.isRed_fork
    rw [htop] at hred
    rw [insertLoop, if_neg (mt h.root_eq_iff.mp (List.cons_ne_nil f z))]
    exact and_then (h.parentOf ht) (and_then hred hm')

theorem insertTurn_recolor (h : Holds m (plug (f :: g :: z) t)) (ht : t ≠ leaf)
    (hg : g.sibling.isRed = true) :
    ∃ m', insertTurn g.side (ptr m t) m = some (g.elem, m') ∧ Keeps m m' ∧
      Holds m' (plug z (fork g.side .red (fork f.side .black t f.elem f.sibling) g.elem
        (g.sibling.paint .black))) := by
  have hp : Holds m (plug (g :: z) (fork f.side f.color t f.elem f.sibling)) := h
  have hgrand : Holds m (plug z (fork g.side g.color (fork f.side f.color t f.elem f.sibling) g.elem
    g.sibling)) := h
  have hred := hp.isRed_sibling
  rw [hg] at hred
  -- the parent, the uncle and the grandparent in turn
  obtain ⟨m₁, hm₁, hk₁, h₁⟩ := hp.blacken_fork
  rw [plug_sibling] at h₁
  obtain ⟨m₂, hm₂, hk₂, h₂⟩ := h₁.blacken
  rw [ptr_congr hk₁.sentinel] at hm₂
  rw [← plug_sibling ⟨g.side, g.color, g.elem, g.sibling.paint .black⟩] at h₂
  obtain ⟨m₃, hm₃, hk₃, h₃⟩ := Holds.redden_fork (z := z) h₂
  refine ⟨m₃, ?_, (hk₁.trans hk₂).trans hk₃, h₃⟩
  exact and_then (h.parentOf ht) (and_then hp.parentOf_fork (and_then hgrand.childOf_other
    (and_then hred (and_then hm₁ (and_then hm₂ (and_then hm₃ rfl))))))

theorem turnGrand_holds {c' : Color} {u s v : Nodes} {p q : Ptr}
    (h : Holds m (plug z (fork d c (fork d c' u p s) q v))) (hu : u ≠ leaf) :
    ∃ m', turnGrand d (ptr m u) m = some (ptr m u, m') ∧ Keeps m m' ∧
      Holds m' (plug z (fork d .black u p (fork d .red s q v))) := by
  have hp : Holds m (plug (⟨d, c, q, v⟩ :: z) (fork d c' u p s)) := h
  have hnode : Holds m (plug (⟨d, c', p, s⟩ :: ⟨d, c, q, v⟩ :: z) u) := h
  obtain ⟨m₁, hm₁, hk₁, h₁⟩ := hp.blacken_fork
  obtain ⟨m₂, hm₂, hk₂, h₂⟩ := Holds.redden_fork (z := z) h₁
  have hturned : Holds m₂ (plug z (fork d.other .red v q (fork d.other .black s p u))) := by
    rw [fork_other, fork_other]
    exact h₂
  obtain ⟨m₃, hm₃, hk₃, h₃⟩ := hturned.rotate
  rw [fork_other, fork_other] at h₃
  refine ⟨m₃, ?_, (hk₁.trans hk₂).trans hk₃, h₃⟩
  exact and_then (hnode.parentOf hu) (and_then hm₁ (and_then h₁.parentOf_fork (and_then hm₂
    (and_then hm₃ rfl))))

theorem insertTurn_outer (h : Holds m (plug (f :: g :: z) t)) (ht : t ≠ leaf)
    (hg : g.sibling.isRed = false) (hside : f.side = g.side) :
    ∃ m', insertTurn g.side (ptr m t) m = some (ptr m t, m') ∧ Keeps m m' ∧
      Holds m' (plug z (fork g.side .black t f.elem (fork g.side .red f.sibling g.elem g.sibling))) := by
  have hp : Holds m (plug (g :: z) (fork f.side f.color t f.elem f.sibling)) := h
  have hgrand : Holds m (plug z (fork g.side g.color (fork f.side f.color t f.elem f.sibling) g.elem
    g.sibling)) := h
  have hred := hp.isRed_sibling
  rw [hg] at hred
  have hinner := hp.childOf_other
  rw [hside] at hinner hgrand
  obtain ⟨m', hm', hk, h'⟩ := turnGrand_holds hgrand ht
  refine ⟨m', ?_, hk, h'⟩
  have halign : alignInner g.side (ptr m t) f.elem m = some (ptr m t, m) := by
    refine and_then hinner ?_
    exact if_neg (h.ptr_ne_sibling (.inl ht))
  exact and_then (h.parentOf ht) (and_then hp.parentOf_fork (and_then (Holds.childOf_other (z := z) hp)
    (and_then hred (and_then halign hm'))))

theorem insertTurn_inner (h : Holds m (plug (f :: g :: z) (fork g.side .red a x b)))
    (hg : g.sibling.isRed = false) (hside : f.side = g.side.other) :
    ∃ m', insertTurn g.side x m = some (f.elem, m') ∧ Keeps m m' ∧
      Holds m' (plug z (fork g.side .black (fork g.side f.color f.sibling f.elem a) x
        (fork g.side .red b g.elem g.sibling))) := by
  have hp : Holds m (plug (g :: z) (fork g.side f.color f.sibling f.elem (fork g.side .red a x b))) := by
    rw [plug, hside, fork_other] at h
    exact h
  have hred := hp.isRed_sibling
  rw [hg] at hred
  have hinner := hp.childOf_other
  rw [ptr_fork] at hinner
  obtain ⟨m₁, hm₁, hk₁, h₁⟩ := hp.rotate
  have halign : alignInner g.side x f.elem m = some (f.elem, m₁) := by
    refine and_then hinner ?_
    rw [if_pos rfl, hm₁]
    rfl
  obtain ⟨m', hm', hk, h'⟩ := turnGrand_holds (z := z) h₁ fork_ne_leaf
  rw [ptr_fork] at hm'
  refine ⟨m', ?_, hk₁.trans hk, h'⟩
  exact and_then h.parentOf_fork (and_then hp.parentOf_fork (and_then (Holds.childOf_other (z := z) hp)
    (and_then hred (and_then halign hm'))))

theorem insertLoop_turn {fuel : ℕ} {node : Ptr} {m₁ m' : Mem} (h : Holds m (plug (f :: g :: z) t))
    (ht : t ≠ leaf) (hf : f.color = .red) (hturn : insertTurn g.side (ptr m t) m = some (node, m₁))
    (hloop : insertLoop fuel node m₁ = some m') :
    insertLoop (fuel + 1) (ptr m t) m = some m' := by
  have hp : Holds m (plug (g :: z) (fork f.side f.color t f.elem f.sibling)) := h
  have hside := hp.sideOf (.inl fork_ne_leaf)
  have hcolor := hp.isRed_fork
  rw [ptr_fork] at hside
  rw [hf] at hcolor
  rw [insertLoop, if_neg (mt h.root_eq_iff.mp (List.cons_ne_nil f _))]
  exact and_then (h.parentOf ht) (and_then hcolor (and_then hp.parentOf_fork (and_then hside
    (and_then hturn hloop))))

theorem insertLoop_rotated {fuel : ℕ} {m₁ : Mem} {u v : Nodes} {p : Ptr} (hk : Keeps m m₁)
    (h₁ : Holds m₁ (plug z (fork d .black u p v))) (hu : u ≠ leaf)
    (hvalid : (plug z (fork d .black u p v)).Valid)
    (horder : (plug z (fork d .black u p v)).inorder = t.inorder) :
    ∃ m', insertLoop (fuel + 1) (ptr m u) m₁ = some m' ∧ Rebalanced m t m' := by
  have hplace : Holds m₁ (plug (⟨d, .black, p, v⟩ :: z) u) := h₁
  obtain ⟨m', hm', hr⟩ := insertLoop_stop hplace hu (.inr rfl) hvalid.paint_black fuel
  rw [ptr_congr hk.sentinel] at hm'
  exact ⟨m', hm', hr.after hk horder⟩

theorem insertLoop_rebalances {n fuel : ℕ} (h : Holds m (plug z t)) (hred : t.isRed = true)
    (hn : t.Balanced n) (hz : Hole z n) (hfuel : z.length < fuel) :
    ∃ m', insertLoop fuel (ptr m t) m = some m' ∧ Rebalanced m (plug z t) m' := by
  induction fuel generalizing m z t n with
  | zero => exact absurd hfuel (Nat.not_lt_zero _)
  | succ fuel ih =>
    have ht : t ≠ leaf := by
      rintro rfl
      cases hred
    cases z with
    | nil => exact insertLoop_stop h ht (.inl rfl) ⟨isRed_paint_black t, n + 1, hn.paint_black hred⟩ fuel
    | cons f z =>
      cases hf : f.color with
      | black =>
        have htop : TopBlack (f :: z) := congrArg some hf
        exact insertLoop_stop h ht (.inr htop) (hz.valid hn fun _ => htop).paint_black fuel
      | red =>
        obtain ⟨-, htop, -⟩ := (hole_red hf).mp hz
        cases z with
        | nil => cases htop
        | cons g z =>
          obtain ⟨fuel, rfl⟩ : ∃ k, fuel = k + 1 :=
            Nat.exists_eq_succ_of_ne_zero (by simp at hfuel; omega)
          cases hg : g.sibling.isRed with
          | true =>
            obtain ⟨m₁, hturn, hk, h₁⟩ := insertTurn_recolor h ht hg
            obtain ⟨hn₁, hz₁⟩ := hz.recolor hn hf hg
            obtain ⟨m', hm', hr⟩ := ih h₁ (by simp) hn₁ hz₁ (by simp at hfuel; omega)
            rw [ptr_fork] at hm'
            refine ⟨m', insertLoop_turn h ht hf hturn hm', hr.after hk ?_⟩
            exact inorder_plug_congr (RedBlack.Tree.inorder_fork_congr
              (RedBlack.Tree.inorder_fork_congr rfl rfl) (RedBlack.Tree.inorder_paint _ _))
          | false =>
            by_cases hside : f.side = g.side
            · obtain ⟨m₁, hturn, hk, h₁⟩ := insertTurn_outer h ht hg hside
              have horder : (plug z (fork g.side .black t f.elem
                  (fork g.side .red f.sibling g.elem g.sibling))).inorder =
                  (plug (f :: g :: z) t).inorder := by
                refine inorder_plug_congr ?_
                rw [hside]
                exact RedBlack.Tree.inorder_rotate ..
              obtain ⟨m', hm', hr⟩ :=
                insertLoop_rotated hk h₁ ht (hz.turn_outer hn hf hg g.side) horder
              exact ⟨m', insertLoop_turn h ht hf hturn hm', hr⟩
            · have hother := Side.eq_other_of_ne hside
              obtain ⟨a, x, b, rfl⟩ := RedBlack.Tree.red_fork g.side hred
              obtain ⟨m₁, hturn, hk, h₁⟩ := insertTurn_inner h hg hother
              rw [hf] at h₁
              have horder : (plug z (fork g.side .black (fork g.side .red f.sibling f.elem a)
                  x (fork g.side .red b g.elem g.sibling))).inorder =
                  (plug (f :: g :: z) (fork g.side .red a x b)).inorder := by
                refine inorder_plug_congr ?_
                rw [hother, fork_other]
                exact RedBlack.Tree.inorder_rotate_twice ..
              obtain ⟨m', hm', hr⟩ :=
                insertLoop_rotated hk h₁ fork_ne_leaf (hz.turn_inner hn hf hg) horder
              rw [ptr_fork] at hm'
              refine ⟨m', insertLoop_turn h ht hf ?_ hm', hr⟩
              rw [ptr_fork]
              exact hturn

end Loop

def Ascending (m : Mem) (t : Nodes) : Prop :=
  t.inorder.Pairwise fun p q => m.key p < m.key q

section Descent
variable {m : Mem} {t : Nodes} {z : List (Frame Ptr)} {f : Frame Ptr} {p : Ptr}

theorem Holds.attach (h : Holds m (plug (f :: z) leaf)) (hlive : m.live p = true)
    (hp : p ≠ m.sentinel) (hnew : p ∉ surrounding (f :: z)) :
    ∃ m', attach f.side f.elem p m = some m' ∧ Keeps m m' ∧
      Holds m' (plug (f :: z) (.node .red leaf p leaf)) := by
  have hf : f.elem ∈ surrounding (f :: z) := mem_surrounding_cons.mpr (.inl rfl)
  have hfp : f.elem ≠ p := fun heq => hnew (heq ▸ hf)
  obtain ⟨hflive, -⟩ := h.mem_plug (.inr hf)
  obtain ⟨up, hlinked⟩ := h.linked
  obtain ⟨haround, -⟩ := linked_plug.mp hlinked
  have hnodup : (surrounding (f :: z)).Nodup := h.nodup_plug
  refine ⟨_, and_then (write_live m _ hflive) (and_then (write_live _ _ hlive)
    (and_then (write_live _ _ hlive) (and_then (write_live _ _ hlive) (write_live _ _ hlive)))), ?_, ?_⟩
  · refine ⟨rfl, rfl, rfl, ?_⟩
    simp [Mem.putRed, Mem.putChild, Mem.putParent, hp.symm]
  · have hperm := inorder_plug_perm (f :: z) (RedBlack.Tree.node .red leaf p leaf)
    have hmem : ∀ q, q ∈ (plug (f :: z) (RedBlack.Tree.node .red leaf p leaf)).inorder ↔
        q = p ∨ q ∈ surrounding (f :: z) := by
      intro q
      rw [hperm.mem_iff]
      exact List.mem_cons
    constructor
    · exact h.root.trans (ptr_plug_cons f _ _)
    · refine ⟨up, linked_plug.mpr ⟨haround.refill rfl hnodup ?_ ?_ ?_ ?_ ?_, ?_, trivial, trivial⟩⟩
      · simp [Mem.putRed, Mem.putChild, Mem.putParent, hfp, ptr]
      · simp [Mem.putRed, Mem.putChild, Mem.putParent, hfp, Side.other_ne]
      · simp [Mem.putRed, Mem.putChild, Mem.putParent, hfp]
      · simp [Mem.putRed, Mem.putChild, Mem.putParent, hfp]
      · intro q hq hne
        have hqp : q ≠ p := fun heq => hnew (heq ▸ hq)
        simp [SameNode, Mem.putRed, Mem.putChild, Mem.putParent, hqp, hne]
      · simp [Mem.putRed, Mem.putChild, Mem.putParent, above, ptr]
    · intro q hq
      rcases (hmem q).mp hq with rfl | hq
      · exact hlive
      · exact (h.mem_plug (.inr hq)).1
    · refine hperm.nodup_iff.mpr ?_
      exact List.nodup_cons.mpr ⟨hnew, hnodup⟩
    · intro hs
      rcases (hmem _).mp hs with hs | hs
      · exact hp hs.symm
      · exact (h.mem_plug (.inr hs)).2 rfl
    · exact h.sentinelLive
    · have hred := h.sentinelBlack
      simpa [Mem.putRed, Mem.putChild, Mem.putParent, hp.symm] using hred

theorem plant_holds (h : Holds m leaf) (hlive : m.live p = true) (hp : p ≠ m.sentinel) :
    ∃ m', plant p m = some m' ∧ Keeps m m' ∧ Holds m' (.node .black leaf p leaf) := by
  refine ⟨_, and_then (write_live m _ hlive) (and_then (write_live _ _ hlive)
    (and_then (write_live _ _ hlive) (and_then (write_live _ _ hlive) rfl))), ?_, ?_⟩
  · refine ⟨rfl, rfl, rfl, ?_⟩
    simp [Mem.putRed, Mem.putChild, Mem.putParent, hp.symm]
  · constructor
    · rfl
    · refine ⟨null, ?_, trivial, trivial⟩
      simp [Mem.putRed, Mem.putChild, Mem.putParent, ptr]
    · intro q hq
      cases List.mem_singleton.mp hq
      exact hlive
    · exact List.pairwise_singleton _ p
    · intro hs
      exact hp (List.mem_singleton.mp hs).symm
    · exact h.sentinelLive
    · have hred := h.sentinelBlack
      simpa [Mem.putRed, Mem.putChild, Mem.putParent, hp.symm] using hred

def Fits (m : Mem) (k : UInt64) (z : List (Frame Ptr)) : Prop :=
  (∀ q ∈ before z, m.key q < k) ∧ ∀ q ∈ after z, k < m.key q

def OnSide (d : Side) (k k' : UInt64) : Prop :=
  match d with
  | .left => k < k'
  | .right => k' < k

theorem Fits.down {c : Color} {a b : Nodes} {x : Ptr} {d : Side} {k : UInt64} (h : Fits m k z)
    (hasc : Ascending m (plug z (fork d c a x b)))
    (hd : OnSide d k (m.key x)) :
    Fits m k (⟨d, c, x, b⟩ :: z) := by
  rw [Ascending, inorder_plug, List.pairwise_append, List.pairwise_append] at hasc
  obtain ⟨⟨-, ht, -⟩, -, -⟩ := hasc
  cases d with
  | left =>
    obtain ⟨-, hxb, -⟩ := List.pairwise_append.mp ht
    obtain ⟨hx, -⟩ := List.pairwise_cons.mp hxb
    refine ⟨?_, ?_⟩
    · intro q hq
      rw [before, List.append_nil] at hq
      exact h.1 q hq
    · intro q hq
      rcases List.mem_append.mp hq with hq | hq
      · rcases List.mem_cons.mp hq with rfl | hq
        · exact hd
        · exact UInt64.lt_trans hd (hx q hq)
      · exact h.2 q hq
  | right =>
    obtain ⟨-, -, hbx⟩ := List.pairwise_append.mp ht
    refine ⟨?_, ?_⟩
    · intro q hq
      rcases List.mem_append.mp hq with hq | hq
      · exact h.1 q hq
      · rcases List.mem_append.mp hq with hq | hq
        · exact UInt64.lt_trans (hbx q hq x List.mem_cons_self) hd
        · cases List.mem_singleton.mp hq
          exact hd
    · intro q hq
      exact h.2 q hq

theorem alRbtreeInsertValue_holds {fuel : ℕ} (h : Holds m (plug z t)) (ht : t ≠ leaf)
    (hlive : m.live p = true) (hp : p ≠ m.sentinel) (hnew : p ∉ (plug z t).inorder)
    (hfuel : t.inorder.length ≤ fuel) :
    ∃ m' z', alRbtreeInsertValue fuel (ptr m t) p m = some m' ∧ Keeps m m' ∧
      plug z t = plug z' leaf ∧ Holds m' (plug z' (.node .red leaf p leaf)) ∧
      (Ascending m (plug z t) → (∀ q ∈ t.inorder, m.key q ≠ m.key p) → Fits m (m.key p) z →
        Fits m (m.key p) z') := by
  induction fuel generalizing z t with
  | zero =>
    have hmem := ptr_mem (m := m) ht
    rw [List.eq_nil_of_length_eq_zero (Nat.le_zero.mp hfuel)] at hmem
    cases hmem
  | succ fuel ih =>
    -- the side by the test of the source
    obtain ⟨d, hd⟩ : ∃ d : Side, d = if m.key p < m.key (ptr m t) then .left else .right := ⟨_, rfl⟩
    obtain ⟨c, a, x, b, rfl⟩ := RedBlack.Tree.eq_fork d ht
    rw [ptr_fork] at hd ⊢
    have hxlive : m.live x = true := by
      have := h.ptr_live
      rwa [ptr_fork] at this
    have hside : m.key x ≠ m.key p → OnSide d (m.key p) (m.key x) := by
      intro hne
      by_cases hlt : m.key p < m.key x
      · rw [hd, if_pos hlt]
        exact hlt
      · rw [hd, if_neg hlt]
        exact UInt64.lt_of_le_of_ne (UInt64.not_lt.mp hlt) hne
    have hstep : ∀ {m'}, (if ptr m a = m.sentinel then attach d x p m
        else alRbtreeInsertValue fuel (ptr m a) p m) = some m' →
        alRbtreeInsertValue (fuel + 1) x p m = some m' := by
      intro m' hm'
      refine and_then (read_live m m.key hlive) (and_then (read_live m m.key hxlive) ?_)
      rw [← hd]
      exact and_then h.childOf hm'
    have hplace : Holds m (plug (⟨d, c, x, b⟩ :: z) a) := h
    have hdown : Ascending m (plug z (fork d c a x b)) →
        (∀ q ∈ (fork d c a x b).inorder, m.key q ≠ m.key p) → Fits m (m.key p) z →
        Fits m (m.key p) (⟨d, c, x, b⟩ :: z) := by
      intro hasc hfresh hfit
      exact hfit.down hasc (hside (hfresh x (RedBlack.Tree.mem_inorder_fork.mpr (.inl rfl))))
    by_cases ha : a = leaf
    · subst ha
      have hnew' : p ∉ surrounding (⟨d, c, x, b⟩ :: z) := by
        intro hmem
        exact hnew ((inorder_plug_perm (⟨d, c, x, b⟩ :: z) leaf).mem_iff.mpr hmem)
      obtain ⟨m', hm', hk, h'⟩ := hplace.attach hlive hp hnew'
      exact ⟨m', _, hstep ((if_pos rfl).trans hm'), hk, rfl, h', hdown⟩
    · have hlen : a.inorder.length < (fork d c a x b).inorder.length := by
        rw [(inorder_fork_perm (d := d) (c := c) (a := a) (x := x) (b := b)).length_eq, List.length_cons,
          List.length_append]
        omega
      obtain ⟨m', z', hm', hk, heq, h', hfits⟩ := ih hplace ha hnew (by omega)
      refine ⟨m', z', hstep ?_, hk, heq, h', fun hasc hfresh hfit => hfits hasc ?_ (hdown hasc hfresh hfit)⟩
      · rw [if_neg (mt hplace.ptr_eq_sentinel.mp ha)]
        exact hm'
      · intro q hq
        exact hfresh q (RedBlack.Tree.mem_inorder_fork.mpr (.inr (.inl hq)))

end Descent

structure Sound (m : Mem) (t : Nodes) : Prop extends Holds m t where
  valid : t.Valid
  ascending : Ascending m t

section Insert
variable {m : Mem} {t : Nodes} {z : List (Frame Ptr)} {p : Ptr} {fuel : ℕ}

theorem length_le_surrounding (z : List (Frame Ptr)) : z.length ≤ (surrounding z).length := by
  induction z with
  | nil => exact Nat.le_refl 0
  | cons f z ih =>
    simp only [surrounding, List.flatMap_cons, List.length_cons, List.length_append] at ih ⊢
    omega

theorem Fits.ascending {c : Color} (h : Fits m (m.key p) z) (hasc : Ascending m (plug z leaf)) :
    Ascending m (plug z (.node c leaf p leaf)) := by
  rw [Ascending, inorder_plug] at hasc ⊢
  simp only [RedBlack.Tree.inorder, List.append_nil, List.nil_append, List.append_assoc,
    List.cons_append] at hasc ⊢
  obtain ⟨hb, ha, hba⟩ := List.pairwise_append.mp hasc
  refine List.pairwise_append.mpr ⟨hb, List.pairwise_cons.mpr ⟨h.2, ha⟩, ?_⟩
  intro q hq r hr
  rcases List.mem_cons.mp hr with rfl | hr
  · exact h.1 q hq
  · exact hba q hq r hr

theorem alRbtreeInsert_holds (h : Holds m t) (hvalid : t.Valid) (hlive : m.live p = true)
    (hp : p ≠ m.sentinel) (hnew : p ∉ t.inorder) (hfuel : t.inorder.length < fuel) :
    ∃ m' t', alRbtreeInsert fuel p m = some m' ∧ Keeps m m' ∧ Holds m' t' ∧ t'.Valid ∧
      t'.inorder.Perm (p :: t.inorder) ∧
      (Ascending m t → (∀ q ∈ t.inorder, m.key q ≠ m.key p) → Ascending m' t') := by
  have hplace : Holds m (plug [] t) := h
  by_cases ht : t = leaf
  · subst ht
    obtain ⟨m', hm', hk, h'⟩ := plant_holds h hlive hp
    refine ⟨m', _, (if_pos h.root).trans hm', hk, h', ⟨rfl, 1, 0, rfl, rfl, rfl⟩, .refl _, fun _ _ => ?_⟩
    exact List.pairwise_singleton _ p
  · have hroot : m.root ≠ m.sentinel := by
      rw [h.root]
      exact mt hplace.ptr_eq_sentinel.mp ht
    have hnil : Fits m (m.key p) [] :=
      ⟨fun _ hq => (List.not_mem_nil hq).elim, fun _ hq => (List.not_mem_nil hq).elim⟩
    obtain ⟨m₁, z, hm₁, hk₁, heq, h₁, hfits⟩ :=
      alRbtreeInsertValue_holds hplace ht hlive hp hnew (Nat.le_of_lt hfuel)
    have htree : t = plug z leaf := heq
    obtain ⟨n, hn, hz, -⟩ := (htree ▸ hvalid : (plug z leaf).Valid).hole
    cases hn
    have hlen : z.length < fuel := by
      have hsur := length_le_surrounding z
      have := (inorder_plug_perm z leaf).length_eq
      rw [← htree] at this
      simp only [RedBlack.Tree.inorder, List.nil_append] at this
      omega
    obtain ⟨m', hm', hk, t', ht', hvalid', horder⟩ :=
      insertLoop_rebalances (n := 0) h₁ rfl ⟨rfl, rfl, rfl, rfl⟩ hz hlen
    refine ⟨m', t', ?_, hk₁.trans hk, ht', hvalid', ?_, fun hasc hfresh => ?_⟩
    · rw [alRbtreeInsert, if_neg hroot, h.root]
      exact and_then hm₁ hm'
    · rw [horder, htree]
      refine (inorder_plug_perm z _).trans ?_
      exact (inorder_plug_perm z leaf).symm.cons p
    · rw [Ascending, horder, (hk₁.trans hk).key]
      exact (hfits hasc hfresh hnil).ascending (htree ▸ hasc)

theorem alRbtreeInsert_sound (h : Sound m t) (hlive : m.live p = true) (hp : p ≠ m.sentinel)
    (hnew : p ∉ t.inorder) (hfresh : ∀ q ∈ t.inorder, m.key q ≠ m.key p)
    (hfuel : t.inorder.length < fuel) :
    ∃ m' t', alRbtreeInsert fuel p m = some m' ∧ Keeps m m' ∧ Sound m' t' ∧
      t'.inorder.Perm (p :: t.inorder) := by
  obtain ⟨m', t', hm', hk, h', hvalid, hperm, hasc⟩ :=
    alRbtreeInsert_holds h.toHolds h.valid hlive hp hnew hfuel
  exact ⟨m', t', hm', hk, ⟨h', hvalid, hasc h.ascending hfresh⟩, hperm⟩

end Insert

end Aware.Tree
