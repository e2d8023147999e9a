import Aware.Tree.Splice

/-!
# Deletion

`al_rbtree_delete` leaves a red-black tree with the same nodes in the same order and without the
one that is deleted. The sentinel stands for the empty subtree at the start of its loop, and its
parent is then read.
-/
namespace Aware.Tree
open RedBlack hiding Tree
open RedBlack.Tree (fork leaf fork_ne_leaf fork_other paint_fork isRed_paint_black
  paint_black_of_black mem_inorder_fork)

def Poised (m : Mem) (t : Nodes) (x : Ptr) : Prop :=
  t = leaf → m.parent m.sentinel = x

section Loop
variable {m : Mem} {t a b : Nodes} {x y : Ptr} {d : Side} {z : List (Frame Ptr)} {f : Frame Ptr}

theorem Poised.keep {m' : Mem} (h : Poised m t x) (hk : Keeps m m') : Poised m' t x := by
  intro ht
  rw [hk.sentinel, hk.parent]
  exact h ht

theorem Holds.parentOf_poised (h : Holds m (plug (f :: z) t)) (hp : Poised m t f.elem) :
    m.parentOf (ptr m t) = some f.elem := by
  by_cases ht : t = leaf
  · subst ht
    exact parentOf_eq m h.sentinelLive (hp rfl)
  · exact h.parentOf ht

theorem deleteLoop_stop (h : Holds m (plug z t)) (hl : Lacks z t) (hz : z = [] ∨ t.isRed = true)
    (fuel : ℕ) :
    ∃ m', deleteLoop (fuel + 1) (ptr m t) m = some m' ∧ Rebalanced m (plug z t) m' := by
  obtain ⟨m', hm', hk, h'⟩ := h.blacken
  have hvalid : (plug z (t.paint .black)).Valid := by
    rcases hz with rfl | hred
    · exact hl.of_root
    · exact hl.of_red hred
  refine ⟨m', ?_, hk, _, h', hvalid, inorder_plug_congr (RedBlack.Tree.inorder_paint _ _)⟩
  rw [deleteLoop]
  split
  · exact hm'
  · next hroot =>
      have hred := hz.resolve_left (mt h.root_eq_iff.mpr hroot)
      have hcolor := h.isRed
      rw [hred] at hcolor
      exact and_then hcolor hm'

theorem blackSibling_red (h : Holds m (plug (f :: z) t)) (hp : Poised m t f.elem)
    (hs : f.sibling = fork f.side .red a y b) :
    ∃ m', blackSibling f.side (ptr m t) f.elem y m = some (ptr m a, m') ∧ Keeps m m' ∧
      Holds m' (plug (⟨f.side, .red, f.elem, a⟩ :: ⟨f.side, .black, y, b⟩ :: z) t) := by
  have hsib := h
  rw [plug_sibling, hs] at hsib
  obtain ⟨m₁, hm₁, hk₁, h₁⟩ := hsib.blacken_fork
  rw [← plug_sibling ⟨f.side, f.color, f.elem, fork f.side .black a y b⟩] at h₁
  obtain ⟨m₂, hm₂, hk₂, h₂⟩ := Holds.redden_fork (z := z) h₁
  obtain ⟨m₃, hm₃, hk₃, h₃⟩ := h₂.rotate
  have hk := (hk₁.trans hk₂).trans hk₃
  refine ⟨m₃, ?_, hk, h₃⟩
  have hplace : Holds m₃ (plug (⟨f.side, .red, f.elem, a⟩ :: ⟨f.side, .black, y, b⟩ :: z) t) := h₃
  have hup := hplace.parentOf_poised (hp.keep hk)
  have hnear : Holds m₃ (plug (⟨f.side, .black, y, b⟩ :: z) (fork f.side .red t f.elem a)) := h₃
  have hchild := hnear.childOf_other
  rw [ptr_congr hk.sentinel] at hup hchild
  exact and_then hsib.isRed_fork (and_then hm₁ (and_then hm₂ (and_then hm₃ (and_then hup
    (and_then hchild rfl)))))

theorem turnParent_holds {c c' : Color} (h : Holds m (plug z (fork d c t x (fork d c' a y b))))
    (hp : Poised m t x) :
    ∃ m', turnParent d (ptr m t) y m = some (m'.root, m') ∧ Keeps m m' ∧
      Holds m' (plug z (fork d c (fork d .black t x a) y (b.paint .black))) := by
  have hplace : Holds m (plug (⟨d, c, x, fork d c' a y b⟩ :: z) t) := h
  have hsib := hplace
  rw [plug_sibling] at hsib
  -- the sibling, the parent and the far child in turn
  obtain ⟨m₁, hm₁, hk₁, h₁⟩ := hsib.paint_fork (k := c)
  rw [← plug_sibling ⟨d, c, x, fork d c a y b⟩] at h₁
  obtain ⟨m₂, hm₂, hk₂, h₂⟩ := Holds.blacken_fork (z := z) h₁
  have hfar := h₂.far.childOf_other
  obtain ⟨m₃, hm₃, hk₃, h₃⟩ := h₂.far.far.blacken
  have hwhole : Holds m₃ (plug z (fork d .black t x (fork d c a y (b.paint .black)))) := by
    rw [plug, plug, fork_other, fork_other] at h₃
    exact h₃
  obtain ⟨m₄, hm₄, hk₄, h₄⟩ := hwhole.rotate
  refine ⟨m₄, ?_, ((hk₁.trans hk₂).trans hk₃).trans hk₄, h₄⟩
  exact and_then (hplace.parentOf_poised hp) (and_then h.isRed_fork (and_then hm₁ (and_then hm₂
    (and_then hfar (and_then hm₃ (and_then hm₄ rfl))))))

theorem farRed_near {a₁ a₂ : Nodes} {v : Ptr} (h : Holds m (plug (f :: z) t)) (hp : Poised m t f.elem)
    (hs : f.sibling = fork f.side .black (fork f.side .red a₁ v a₂) y b) (hb : b.isRed = false) :
    ∃ m', farRed f.side (ptr m t) y v (ptr m b) m = some (v, m') ∧ Keeps m m' ∧
      Holds m' (plug z (fork f.side f.color t f.elem
        (fork f.side .black a₁ v (fork f.side .red a₂ y b)))) := by
  have hsib := h
  rw [plug_sibling, hs] at hsib
  have hcolor := hsib.far.isRed
  rw [hb] at hcolor
  have hnear : Holds m (plug (⟨f.side, .black, y, b⟩ :: ⟨f.side.other, f.color, f.elem, t⟩ :: z)
      (fork f.side .red a₁ v a₂)) := hsib
  obtain ⟨m₁, hm₁, hk₁, h₁⟩ := hnear.blacken_fork
  obtain ⟨m₂, hm₂, hk₂, h₂⟩ := Holds.redden_fork (z := ⟨f.side.other, f.color, f.elem, t⟩ :: z) h₁
  have hturned : Holds m₂ (plug (⟨f.side.other, f.color, f.elem, t⟩ :: z)
      (fork f.side.other .red b y (fork f.side.other .black a₂ v a₁))) := by
    rw [fork_other, fork_other]
    exact h₂
  obtain ⟨m₃, hm₃, hk₃, h₃⟩ := hturned.rotate
  have hk := (hk₁.trans hk₂).trans hk₃
  have hwhole : Holds m₃ (plug z (fork f.side f.color t f.elem
      (fork f.side .black a₁ v (fork f.side .red a₂ y b)))) := by
    rw [fork_other, fork_other, plug, fork_other] at h₃
    exact h₃
  refine ⟨m₃, ?_, hk, hwhole⟩
  have hplace : Holds m₃ (plug (⟨f.side, f.color, f.elem,
    fork f.side .black a₁ v (fork f.side .red a₂ y b)⟩ :: z) t) := hwhole
  have hup := hplace.parentOf_poised (hp.keep hk)
  have hchild := hwhole.childOf_other
  rw [ptr_congr hk.sentinel] at hup
  rw [ptr_fork] at hchild
  exact and_then hcolor (and_then hm₁ (and_then hm₂ (and_then hm₃ (and_then hup
    (and_then hchild rfl)))))

/-- What a turn leaves: a place above, or the whole tree, with its pointer `node`. -/
structure Settled (m : Mem) (z : List (Frame Ptr)) (t : Nodes) (red : Bool) (node : Ptr) (m' : Mem)
    (z' : List (Frame Ptr)) (t' : Nodes) : Prop where
  keeps : Keeps m m'
  node : node = ptr m' t'
  holds : Holds m' (plug z' t')
  lacks : Lacks z' t'
  nonempty : t' ≠ leaf
  order : (plug z' t').inorder = t.inorder
  above : z' = [] ∨ z' = z ∧ t'.isRed = red

theorem settled_of_valid {m' : Mem} {t' : Nodes} {red : Bool} (hk : Keeps m m') (h : Holds m' t')
    (hvalid : t'.Valid) (hne : t' ≠ leaf) (horder : t'.inorder = t.inorder) :
    Settled m z t red m'.root m' [] t' :=
  ⟨hk, h.root, h, hvalid.lacks, hne, horder, .inl rfl⟩

theorem plug_ne_leaf (ht : t ≠ leaf) : plug z t ≠ leaf := by
  induction z generalizing t with
  | nil => exact ht
  | cons f z ih => exact ih fork_ne_leaf

theorem settleSibling_settled (h : Holds m (plug (f :: z) t)) (hl : Lacks (f :: z) t)
    (hp : Poised m t f.elem) (hblack : t.isRed = false) (hs : f.sibling.isRed = false) :
    ∃ node m' z' t', settleSibling f.side (ptr m t) (ptr m f.sibling) m = some (node, m') ∧
      Settled m z (plug (f :: z) t) (decide (f.color = .red)) node m' z' t' := by
  obtain ⟨c, a, y, b, hsib⟩ := RedBlack.Tree.eq_fork f.side hl.sibling_ne_leaf
  have hc : c = .black := by
    rw [hsib, RedBlack.Tree.isRed_fork] at hs
    cases c with
    | red => cases hs
    | black => rfl
  subst hc
  have hwhole : Holds m (plug z (fork f.side f.color t f.elem (fork f.side .black a y b))) := by
    rw [← hsib]
    exact h
  have hw := hwhole.far
  have hnear : Holds m (plug (⟨f.side, .black, y, b⟩ :: ⟨f.side.other, f.color, f.elem, t⟩ :: z) a) := hw
  have hfar := hw.far
  have hcolors : m.isRed (ptr m a) = some a.isRed ∧ m.isRed (ptr m b) = some b.isRed :=
    ⟨hnear.isRed, hfar.isRed⟩
  rw [hsib, ptr_fork]
  cases hb : b.isRed with
  | true =>
    have hstay : farRed f.side (ptr m t) y (ptr m a) (ptr m b) m = some (y, m) :=
      and_then (hfar.isRed.trans (congrArg some hb)) rfl
    obtain ⟨m', hm', hk, h'⟩ := turnParent_holds hwhole hp
    refine ⟨m'.root, m', [], _, and_then hw.childOf (and_then hw.childOf_other
      (and_then hcolors.1 (and_then hcolors.2 ?_))), settled_of_valid hk h'
        (hl.far_red hblack hsib hb) (plug_ne_leaf fork_ne_leaf) (inorder_plug_congr ?_)⟩
    · rw [hb, Bool.not_true, Bool.and_false]
      exact and_then hstay hm'
    · rw [hsib]
      refine (RedBlack.Tree.inorder_rotate f.side f.color .black f.color .black t a
        (b.paint .black) f.elem y).symm.trans ?_
      exact RedBlack.Tree.inorder_fork_congr rfl
        (RedBlack.Tree.inorder_fork_congr rfl (RedBlack.Tree.inorder_paint _ _))
  | false =>
    cases ha : a.isRed with
    | true =>
      obtain ⟨a₁, v, a₂, rfl⟩ := RedBlack.Tree.red_fork f.side ha
      obtain ⟨m₁, hm₁, hk₁, h₁⟩ := farRed_near h hp hsib hb
      obtain ⟨m', hm', hk, h'⟩ := turnParent_holds h₁ (hp.keep hk₁)
      rw [ptr_congr hk₁.sentinel] at hm'
      rw [paint_fork] at h'
      refine ⟨m'.root, m', [], _, and_then hw.childOf (and_then hw.childOf_other
        (and_then hcolors.1 (and_then hcolors.2 ?_))), settled_of_valid (hk₁.trans hk) h'
          (hl.near_red hblack hsib hb) (plug_ne_leaf fork_ne_leaf) (inorder_plug_congr ?_)⟩
      · rw [ha, Bool.not_true, Bool.false_and, ptr_fork]
        exact and_then hm₁ hm'
      · rw [hsib]
        exact RedBlack.Tree.inorder_rotate_near ..
    | false =>
      obtain ⟨m', hm', hk, h'⟩ := hw.redden_fork
      rw [plug, fork_other] at h'
      have hplace : Holds m' (plug (⟨f.side, f.color, f.elem, fork f.side .red a y b⟩ :: z) t) := h'
      have hup := hplace.parentOf_poised (hp.keep hk)
      rw [ptr_congr hk.sentinel] at hup
      refine ⟨f.elem, m', z, _, and_then hw.childOf (and_then hw.childOf_other
        (and_then hcolors.1 (and_then hcolors.2 ?_))), ⟨hk, ?_, h', ?_, fork_ne_leaf,
          inorder_plug_congr ?_, .inr ⟨rfl, ?_⟩⟩⟩
      · rw [ha, hb]
        exact and_then hm' (and_then hup rfl)
      · rw [ptr_fork]
      · exact hl.sibling_black hblack hsib ha hb
      · rw [hsib]
        exact RedBlack.Tree.inorder_fork_congr rfl (RedBlack.Tree.inorder_fork_congr rfl rfl)
      · exact RedBlack.Tree.isRed_fork ..

theorem deleteTurn_settled (h : Holds m (plug (f :: z) t)) (hl : Lacks (f :: z) t)
    (hp : Poised m t f.elem) (hblack : t.isRed = false) :
    ∃ node m' z' t', deleteTurn f.side (ptr m t) m = some (node, m') ∧ Keeps m m' ∧
      node = ptr m' t' ∧ Holds m' (plug z' t') ∧ Lacks z' t' ∧ t' ≠ leaf ∧
      (plug z' t').inorder = (plug (f :: z) t).inorder ∧
      (z' = [] ∨ t'.isRed = true ∨ z' = z) := by
  have hnode : Holds m (plug z (fork f.side f.color t f.elem f.sibling)) := h
  have hup := h.parentOf_poised hp
  cases hs : f.sibling.isRed with
  | true =>
    obtain ⟨a, y, b, hsib⟩ := RedBlack.Tree.red_fork f.side hs
    obtain ⟨-, hab, hl₁⟩ := hl.sibling_red hsib
    obtain ⟨m₁, hm₁, hk₁, h₁⟩ := blackSibling_red h hp hsib
    obtain ⟨node, m', z', t', hm', hset⟩ :=
      settleSibling_settled h₁ hl₁ (hp.keep hk₁) hblack hab
    rw [ptr_congr hk₁.sentinel, ptr_congr hk₁.sentinel] at hm'
    have hw := hnode.childOf_other
    rw [hsib, ptr_fork] at hw
    refine ⟨node, m', z', t', and_then hup (and_then hw (and_then hm₁ hm')), hk₁.trans hset.keeps,
      hset.node, hset.holds, hset.lacks, hset.nonempty, ?_, ?_⟩
    · rw [hset.order]
      change (plug z (fork f.side .black (fork f.side .red t f.elem a) y b)).inorder =
        (plug z (fork f.side f.color t f.elem f.sibling)).inorder
      rw [hsib]
      exact inorder_plug_congr (RedBlack.Tree.inorder_rotate ..).symm
    · exact hset.above.imp_right fun habove => .inl habove.2
  | false =>
    have hstay : blackSibling f.side (ptr m t) f.elem (ptr m f.sibling) m =
        some (ptr m f.sibling, m) :=
      and_then (h.isRed_sibling.trans (congrArg some hs)) rfl
    obtain ⟨node, m', z', t', hm', hset⟩ := settleSibling_settled h hl hp hblack hs
    exact ⟨node, m', z', t', and_then hup (and_then hnode.childOf_other (and_then hstay hm')),
      hset.keeps, hset.node, hset.holds, hset.lacks, hset.nonempty, hset.order,
      hset.above.imp_right fun habove => .inr habove.1⟩

theorem deleteLoop_rebalances {fuel : ℕ} (h : Holds m (plug z t)) (hl : Lacks z t)
    (hp : ∀ f ∈ z.head?, Poised m t f.elem) (hfuel : z.length < fuel) :
    ∃ m', deleteLoop fuel (ptr m t) m = some m' ∧ Rebalanced m (plug z t) m' := by
  induction fuel generalizing m z t with
  | zero => exact absurd hfuel (Nat.not_lt_zero _)
  | succ fuel ih =>
    cases z with
    | nil => exact deleteLoop_stop h hl (.inl rfl) fuel
    | cons f z =>
      cases hred : t.isRed with
      | true => exact deleteLoop_stop h hl (.inr hred) fuel
      | false =>
        obtain ⟨node, m₁, z₁, t₁, hturn, hk, rfl, h₁, hl₁, hne, horder, habove⟩ :=
          deleteTurn_settled h hl (hp f rfl) hred
        have hrest : ∃ m', deleteLoop fuel (ptr m₁ t₁) m₁ = some m' ∧
            Rebalanced m₁ (plug z₁ t₁) m' := by
          rw [List.length_cons] at hfuel
          obtain ⟨k, rfl⟩ := Nat.exists_eq_succ_of_ne_zero (show fuel ≠ 0 by omega)
          rcases habove with rfl | hred₁ | rfl
          · exact deleteLoop_stop h₁ hl₁ (.inl rfl) k
          · exact deleteLoop_stop h₁ hl₁ (.inr hred₁) k
          · exact ih h₁ hl₁ (fun _ _ hleaf => absurd hleaf hne) (by omega)
        obtain ⟨m', hm', hr⟩ := hrest
        refine ⟨m', ?_, hr.after hk horder⟩
        have hcolor := h.isRed
        rw [hred] at hcolor
        rw [deleteLoop, if_neg (mt h.root_eq_iff.mp (List.cons_ne_nil f z))]
        exact and_then hcolor (and_then (h.parentOf_poised (hp f rfl))
          (and_then (h.sideOf (.inr hl.sibling_ne_leaf)) (and_then hturn hm')))

end Loop

section Delete
variable {m : Mem} {t l r b : Nodes} {p q : Ptr} {d : Side} {c c' : Color} {z zr : List (Frame Ptr)}
  {f : Frame Ptr} {fuel : ℕ}

theorem scrub_then_loop (red : Bool) (h : Holds m (plug z t))
    (hp : ∀ f ∈ z.head?, Poised m t f.elem) (hlive : m.live p = true) (hps : p ≠ m.sentinel)
    (hout : p ∉ (plug z t).inorder) (hred : red = true → (plug z t).Valid)
    (hblack : red = false → Lacks z t) (hfuel : z.length < fuel) :
    ∃ m' t', (scrub p m >>= fun m₁ => if red then pure m₁ else deleteLoop fuel (ptr m t) m₁) = some m' ∧
      Sheds p m m' ∧ Holds m' t' ∧ t'.Valid ∧ t'.inorder = (plug z t).inorder := by
  obtain ⟨m₁, hm₁, hs₁, h₁, hparent⟩ := h.scrub hlive hps hout
  cases red with
  | true => exact ⟨m₁, _, and_then hm₁ rfl, hs₁, h₁, hred rfl, rfl⟩
  | false =>
    have hp₁ : ∀ f ∈ z.head?, Poised m₁ t f.elem := by
      intro f hf ht
      rw [hs₁.sentinel, hparent]
      exact hp f hf ht
    obtain ⟨m', hm', hk, t', ht', hvalid, horder⟩ := deleteLoop_rebalances h₁ (hblack rfl) hp₁ hfuel
    rw [ptr_congr hs₁.sentinel] at hm'
    exact ⟨m', t', and_then hm₁ hm', hs₁.trans (hk.sheds p), ht', hvalid, horder⟩

theorem alRbtreeMin_plug {x : Ptr} (h : Holds m (plug z (.node c l x r)))
    (hfuel : l.inorder.length < fuel) :
    ∃ zr c' q r', RedBlack.Tree.node c l x r = plug zr (.node c' leaf q r') ∧
      (∀ f ∈ zr, f.side = .left) ∧ alRbtreeMin fuel x m = some q := by
  induction fuel generalizing z c l x r with
  | zero => exact absurd hfuel (Nat.not_lt_zero _)
  | succ fuel ih =>
    have hread : m.childOf .left x = some (ptr m l) := Holds.childOf (d := .left) h
    have hplace : Holds m (plug (⟨.left, c, x, r⟩ :: z) l) := h
    cases l with
    | leaf => exact ⟨[], c, x, r, rfl, fun f hf => absurd hf List.not_mem_nil, and_then hread (if_pos rfl)⟩
    | node c₁ l₁ y r₁ =>
      have hlen : l₁.inorder.length < fuel := by
        simp only [RedBlack.Tree.inorder, List.length_append, List.length_cons] at hfuel
        omega
      obtain ⟨zr, c', q, r', heq, hleft, hmin⟩ := ih hplace hlen
      refine ⟨zr ++ [⟨.left, c, x, r⟩], c', q, r', ?_, ?_, and_then hread ?_⟩
      · rw [plug_append, ← heq]
        rfl
      · intro f hf
        rcases List.mem_append.mp hf with hf | hf
        · exact hleft f hf
        · rw [List.mem_singleton.mp hf]
      · rw [if_neg (mt hplace.ptr_eq_sentinel.mp (by simp))]
        exact hmin

theorem takePlace_min (h : Holds m (plug (zr ++ ⟨.right, c, p, l⟩ :: z) (.node c' leaf q r))) :
    ∃ up m₁ m', m.parentOf q = some up ∧ relink .left q up (ptr m r) m = some m₁ ∧
      takePlace q p up (ptr m r) m₁ = some m' ∧ Sheds p m m' ∧
      Holds m' (plug (zr ++ ⟨.right, c, q, l⟩ :: z) r) ∧
      ∀ f ∈ (zr ++ ⟨.right, c, q, l⟩ :: z).head?, Poised m' r f.elem := by
  have hin := h.inPlace (.inl (by simp))
  have hnodup := h.nodup_plug
  have hq : q ∈ (RedBlack.Tree.node c' leaf q r).inorder := List.mem_append_right _ List.mem_cons_self
  obtain ⟨hlive, hqs⟩ := h.mem_plug (.inl hq)
  have hout : q ∉ (plug (zr ++ ⟨.right, c, p, l⟩ :: z) r).inorder := by
    rw [(inorder_plug_perm _ _).mem_iff]
    exact (List.nodup_cons.mp hnodup).1
  have hqp : q ≠ p := by
    rintro rfl
    refine (List.nodup_cons.mp hnodup).1 (List.mem_append_right _ ?_)
    simp [surrounding]
  have htlive : m.live (ptr m r) = true := (Holds.far (d := .left) h).ptr_live
  cases zr with
  | nil =>
    have h₂ : Holds ((m.putChild .right p (ptr m r)).putParent (ptr m r) p)
      (plug z (.node c l p r)) := Holds.splice (d := .left) h
    obtain ⟨m', hm', hl, hk, hs, h', hparent⟩ := h₂.substitute hlive hqs hout q
    have hptr : ptr ((m.putChild .right p (ptr m r)).putParent (ptr m r) p) r = ptr m r := ptr_congr rfl
    rw [hptr, putParent_putParent] at hm' hparent
    refine ⟨p, _, m', h.parentOf (by simp),
      relink_eq (hin.live _ rfl) (hin.near _ rfl) (hin.far _ rfl), ?_,
      ⟨hl, hs, fun a _ => congrFun hk a⟩, h', ?_⟩
    · rw [takePlace, if_neg hqp, if_pos rfl]
      exact and_then (write_live _ _ htlive) hm'
    · intro f hf hleaf
      cases hf
      rw [hs]
      refine hparent.trans ?_
      rw [hleaf]
      exact if_pos rfl
  | cons g zr =>
    have hgp : g.elem ≠ p := by
      intro heq
      obtain ⟨-, hrest⟩ := List.nodup_cons.mp hnodup
      have hg := (List.nodup_append.mp hrest).2.1
      rw [List.cons_append, surrounding_cons, heq] at hg
      refine (List.nodup_cons.mp hg).1 (List.mem_append_right _ ?_)
      simp [surrounding]
    have h₁ := Holds.splice (d := .left) (z := zr ++ ⟨.right, c, p, l⟩ :: z) h
    have h₂ : Holds ((m.putChild g.side g.elem (ptr m r)).putParent (ptr m r) g.elem)
        (plug z (.node c l p (plug (g :: zr) r))) := by
      rw [← List.cons_append, plug_append] at h₁
      exact h₁
    have hout₂ : q ∉ (plug z (.node c l p (plug (g :: zr) r))).inorder := by
      rw [plug_append] at hout
      exact hout
    obtain ⟨m', hm', hl, hk, hs, h', hparent⟩ := h₂.substitute hlive hqs hout₂
      (((m.putChild g.side g.elem (ptr m r)).putParent (ptr m r) g.elem).parent (ptr _ (plug (g :: zr) r)))
    rw [putParent_self] at hm' hparent
    refine ⟨g.elem, _, m', h.parentOf (by simp),
      relink_eq (hin.live _ rfl) (hin.near _ rfl) (hin.far _ rfl), ?_,
      ⟨hl, hs, fun a _ => congrFun hk a⟩, ?_, ?_⟩
    · rw [takePlace, if_neg hqp, if_neg hgp]
      exact and_then (write_live _ _ htlive) hm'
    · rw [plug_append]
      exact h'
    · intro f hf hleaf
      cases hf
      rw [hs]
      refine hparent.trans ?_
      rw [hleaf]
      exact if_pos rfl

def Deletes (fuel : ℕ) (p : Ptr) (m : Mem) (nodes : List Ptr) : Prop :=
  ∃ m' t', alRbtreeDelete fuel p m = some m' ∧ Sheds p m m' ∧ Holds m' t' ∧ t'.Valid ∧
    t'.inorder = nodes

theorem place_length (z : List (Frame Ptr)) (t : Nodes) :
    z.length + t.inorder.length ≤ (plug z t).inorder.length := by
  have hle := length_le_surrounding z
  rw [(inorder_plug_perm z t).length_eq, List.length_append]
  omega

theorem alRbtreeDelete_single (h : Holds m (plug z (fork d c leaf p b)))
    (hvalid : (plug z (fork d c leaf p b)).Valid) (hgo : outgoing fuel p m = some (p, ptr m b))
    (hfuel : z.length < fuel) : Deletes fuel p m (plug z b).inorder := by
  have hp : p ∈ (fork d c leaf p b).inorder := mem_inorder_fork.mpr (.inl rfl)
  obtain ⟨hlive, hps⟩ := h.mem_plug (.inl hp)
  have hnodup := h.nodup_plug
  have hperm := (inorder_fork_perm (d := d) (c := c) (a := leaf) (x := p) (b := b)).append_right
    (surrounding z)
  have hout : p ∉ (plug z b).inorder := by
    rw [(inorder_plug_perm z b).mem_iff]
    exact (List.nodup_cons.mp (hperm.nodup_iff.mp hnodup)).1
  have hroot := h.root_eq_iff
  rw [ptr_fork] at hroot
  cases z with
  | nil =>
    obtain ⟨m₁, hm₁, hs₁, h₁⟩ := Holds.splice_root h
    have hlive₁ : m₁.live p = true := by
      rw [hs₁.live]
      exact hlive
    have hout₁ : p ∉ (b.paint .black).inorder := by
      rw [RedBlack.Tree.inorder_paint]
      exact hout
    obtain ⟨m₂, hm₂, hs₂, h₂, -⟩ := h₁.scrub hlive₁ (hs₁.sentinel.symm ▸ hps) hout₁
    have hblack : c = .black := by
      have := hvalid.1
      rw [plug, RedBlack.Tree.isRed_fork] at this
      cases c with
      | red => cases this
      | black => rfl
    refine ⟨m₂, _, and_then hgo ?_, hs₁.trans hs₂, h₂,
      ((hvalid.splice fun _ h => h).2 hblack).of_root, RedBlack.Tree.inorder_paint _ _⟩
    change (if p = m.root then _ else _) = _
    rw [if_pos (hroot.mpr rfl)]
    exact and_then hm₁ hm₂
  | cons f z =>
    have hin := h.inPlace (.inl fork_ne_leaf)
    rw [ptr_fork] at hin
    obtain ⟨hvr, hvb⟩ := hvalid.splice fun _ h => h
    have hpoised : ∀ g ∈ (f :: z).head?,
        Poised ((m.putChild f.side f.elem (ptr m b)).putParent (ptr m b) f.elem) b g.elem := by
      intro g hg hleaf
      cases hg
      rw [hleaf]
      exact if_pos rfl
    obtain ⟨m', t', hm', hs', h', hv', ho'⟩ :=
      scrub_then_loop (decide (c = .red)) h.splice hpoised hlive hps hout
        (fun hc => hvr (of_decide_eq_true hc)) (fun hc => hvb (by cases c <;> first | rfl | cases hc))
        hfuel
    refine ⟨m', t', and_then hgo ?_, ⟨hs'.live, hs'.sentinel, hs'.key⟩, h', hv', ho'⟩
    change (if p = m.root then _ else _) = _
    rw [if_neg (mt hroot.mp (List.cons_ne_nil f z))]
    refine and_then h.isRed_fork (and_then h.parentOf_fork (and_then
      (relink_eq (hin.live _ rfl) (hin.near _ rfl) (hin.far _ rfl)) (and_then ?_ hm')))
    rw [takePlace, if_pos rfl]
    exact write_live _ _ h.far.ptr_live

theorem alRbtreeDelete_double
    (h : Holds m (plug (zr ++ ⟨.right, c, p, l⟩ :: z) (.node c' leaf q r)))
    (hvalid : (plug (zr ++ ⟨.right, c, p, l⟩ :: z) (.node c' leaf q r)).Valid)
    (hgo : outgoing fuel p m = some (q, ptr m r))
    (hfuel : (zr ++ ⟨.right, c, p, l⟩ :: z).length < fuel) :
    Deletes fuel p m (plug (zr ++ ⟨.right, c, q, l⟩ :: z) r).inorder := by
  have hp : p ∈ surrounding (zr ++ ⟨.right, c, p, l⟩ :: z) := by
    simp [surrounding]
  obtain ⟨hlive, hps⟩ := h.mem_plug (.inr hp)
  obtain ⟨up, m₁, m₂, hup, hm₁, hm₂, hs₂, h₂, hpoised⟩ := takePlace_min h
  have hout : p ∉ (plug (zr ++ ⟨.right, c, q, l⟩ :: z) r).inorder := by
    have hmiddle : ((q :: r.inorder ++ surrounding zr) ++ p :: (l.inorder ++ surrounding z)).Nodup := by
      have hnodup := h.nodup_plug
      simpa [surrounding, RedBlack.Tree.inorder] using hnodup
    have hp := (List.nodup_cons.mp (List.perm_middle.nodup_iff.mp hmiddle)).1
    rw [(inorder_plug_perm _ _).mem_iff]
    simp only [surrounding, List.flatMap_append, List.flatMap_cons, List.cons_append, List.mem_append,
      List.mem_cons] at hp ⊢
    tauto
  have hrelabel : ∀ n, Hole (zr ++ ⟨.right, c, p, l⟩ :: z) n → Hole (zr ++ ⟨.right, c, q, l⟩ :: z) n :=
    fun _ hz => hz.relabel rfl rfl
  obtain ⟨hvr, hvb⟩ := RedBlack.Tree.Valid.splice (d := .left) hvalid hrelabel
  have hlen : (zr ++ ⟨.right, c, q, l⟩ :: z).length < fuel := by
    simpa using hfuel
  obtain ⟨m', t', hm', hs', h', hv', ho'⟩ :=
    scrub_then_loop (p := p) (decide (c' = .red)) h₂ hpoised
      (by rw [hs₂.live]; exact hlive) (by rw [hs₂.sentinel]; exact hps) hout
      (fun hc => hvr (of_decide_eq_true hc)) (fun hc => hvb (by cases c' <;> first | rfl | cases hc))
      hlen
  refine ⟨m', t', and_then hgo ?_, hs₂.trans hs', h', hv', ho'⟩
  have hred := h.isRed
  have hroot : q ≠ m.root := mt h.root_eq_iff.mp (by simp)
  rw [ptr_congr hs₂.sentinel] at hm'
  change (if q = m.root then _ else _) = _
  rw [if_neg hroot]
  refine and_then (hred.trans ?_) (and_then hup (and_then hm₁ (and_then hm₂ hm')))
  cases c' <;> rfl

theorem erase_middle {before after : List Ptr} (h : (before ++ p :: after).Nodup) :
    (before ++ p :: after).erase p = before ++ after := by
  have hnot : p ∉ before := fun hp =>
    (List.nodup_append.mp h).2.2 p hp p List.mem_cons_self rfl
  rw [List.erase_append_right _ hnot, List.erase_cons_head]

theorem alRbtreeDelete_erase (h : Holds m t) (hvalid : t.Valid) (hp : p ∈ t.inorder)
    (hfuel : t.inorder.length ≤ fuel) : Deletes fuel p m (t.inorder.erase p) := by
  obtain ⟨z, c, l, r, rfl⟩ := exists_plug hp
  have hnode : Holds m (plug z (.node c l p r)) := h
  have hchild : m.childOf .left p = some (ptr m l) ∧ m.childOf .right p = some (ptr m r) :=
    ⟨Holds.childOf (d := .left) hnode, Holds.childOf_other (d := .left) hnode⟩
  have hnodup := h.nodup
  have hlen := place_length z (.node c l p r)
  have horder : (plug z (.node c l p r)).inorder =
      (before z ++ l.inorder) ++ p :: (r.inorder ++ after z) := by
    simp [inorder_plug, RedBlack.Tree.inorder]
  rw [RedBlack.Tree.inorder, List.length_append, List.length_cons] at hlen
  rw [horder] at hnodup
  rw [horder, erase_middle hnodup]
  have hleft : Holds m (plug (⟨.left, c, p, r⟩ :: z) l) := hnode
  have hright : Holds m (plug (⟨.right, c, p, l⟩ :: z) r) := hnode
  by_cases hl : l = leaf
  · subst hl
    have hgo : outgoing fuel p m = some (p, ptr m r) :=
      and_then hchild.1 (and_then hchild.2 (if_pos rfl))
    have := alRbtreeDelete_single (d := .left) hnode hvalid hgo (by omega)
    simpa [inorder_plug, RedBlack.Tree.inorder] using this
  · have hsentinel := mt hleft.ptr_eq_sentinel.mp hl
    cases r with
    | leaf =>
      have hgo : outgoing fuel p m = some (p, ptr m l) := by
        refine and_then hchild.1 (and_then hchild.2 ?_)
        rw [if_neg hsentinel]
        exact if_pos rfl
      have := alRbtreeDelete_single (d := .right) hnode hvalid hgo (by omega)
      simpa [inorder_plug, RedBlack.Tree.inorder] using this
    | node c₁ l₁ x₁ r₁ =>
      have hright' := mt hright.ptr_eq_sentinel.mp (by simp)
      rw [RedBlack.Tree.inorder, List.length_append, List.length_cons] at hlen
      have hshort : l₁.inorder.length < fuel := by omega
      obtain ⟨zr, c', q, r', heq, hzr, hq⟩ := alRbtreeMin_plug hright hshort
      have htree : plug z (.node c l p (.node c₁ l₁ x₁ r₁)) =
          plug (zr ++ ⟨.right, c, p, l⟩ :: z) (.node c' leaf q r') := by
        rw [plug_append, ← heq]
        rfl
      have hdown := htree ▸ hnode
      have hgo : outgoing fuel p m = some (q, ptr m r') := by
        refine and_then hchild.1 (and_then hchild.2 ?_)
        rw [if_neg hsentinel, if_neg hright']
        refine and_then hq (and_then (Holds.childOf (d := .left) hdown) ?_)
        rw [ptr_leaf, if_pos rfl]
        exact and_then (Holds.childOf_other (d := .left) hdown) rfl
      have hlen' := place_length (zr ++ ⟨.right, c, p, l⟩ :: z) (.node c' leaf q r')
      have hpos : 0 < (RedBlack.Tree.node c' leaf q r').inorder.length := Nat.succ_pos _
      rw [← htree] at hlen'
      have := alRbtreeDelete_double hdown (htree ▸ hvalid) hgo (by omega)
      have hmin : (plug zr r').inorder = r'.inorder ++ after zr := by
        rw [inorder_plug, before_left hzr, List.nil_append]
      have hmin' : (RedBlack.Tree.node c₁ l₁ x₁ r₁).inorder = q :: (r'.inorder ++ after zr) := by
        rw [heq, inorder_plug, before_left hzr]
        simp [RedBlack.Tree.inorder]
      rw [plug_append] at this
      rw [hmin']
      simpa [plug, fork, inorder_plug, RedBlack.Tree.inorder, hmin] using this

theorem alRbtreeDelete_sound (h : Sound m t) (hp : p ∈ t.inorder) (hfuel : t.inorder.length ≤ fuel) :
    ∃ m' t', alRbtreeDelete fuel p m = some m' ∧ Sheds p m m' ∧ Sound m' t' ∧
      t'.inorder = t.inorder.erase p := by
  obtain ⟨m', t', hm', hs, h', hvalid, horder⟩ := alRbtreeDelete_erase h.toHolds h.valid hp hfuel
  refine ⟨m', t', hm', hs, ⟨h', hvalid, ?_⟩, horder⟩
  rw [Ascending, horder]
  have hkeys : ∀ a ∈ t.inorder.erase p, m'.key a = m.key a := by
    intro a ha
    exact hs.key a (h.nodup.mem_erase_iff.mp ha).1
  refine List.Pairwise.imp_of_mem ?_ (h.ascending.sublist List.erase_sublist)
  intro a b ha hb hab
  rw [hkeys a ha, hkeys b hb]
  exact hab

end Delete

end Aware.Tree
