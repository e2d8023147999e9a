import Aware.Tree.Insert

/-!
# Taking a node out

The links that `al_rbtree_delete` writes before its loop: a node with one child at most leaves its
place, and may take the place of another one.
-/
namespace Aware.Tree
open RedBlack hiding Tree
open RedBlack.Tree (fork leaf fork_ne_leaf fork_other mem_inorder_fork)

structure Sheds (p : Ptr) (m m' : Mem) : Prop where
  live : m'.live = m.live
  sentinel : m'.sentinel = m.sentinel
  key : ∀ q, q ≠ p → m'.key q = m.key q

theorem Sheds.trans {p : Ptr} {m m' m'' : Mem} (h : Sheds p m m') (h' : Sheds p m' m'') :
    Sheds p m m'' where
  live := h'.live.trans h.live
  sentinel := h'.sentinel.trans h.sentinel
  key q hq := (h'.key q hq).trans (h.key q hq)

theorem Keeps.sheds {m m' : Mem} (h : Keeps m m') (p : Ptr) : Sheds p m m' :=
  ⟨h.live, h.sentinel, fun q _ => congrFun h.key q⟩

section Splice
variable {m : Mem} {t l r b : Nodes} {x p q : Ptr} {d : Side} {c : Color} {z : List (Frame Ptr)}
  {f : Frame Ptr}

theorem Holds.splice (h : Holds m (plug (f :: z) (fork d c leaf x b))) :
    Holds ((m.putChild f.side f.elem (ptr m b)).putParent (ptr m b) f.elem) (plug (f :: z) b) := by
  have hptr := h.far.ptr_notMem
  have hnodup := h.far.nodup_plug
  rw [surrounding_cons] at hptr hnodup
  simp only [RedBlack.Tree.inorder, List.nil_append, List.mem_cons, not_or] at hptr hnodup
  obtain ⟨hb, hrest, hdisj⟩ := List.nodup_append.mp hnodup
  obtain ⟨-, hz⟩ := List.nodup_cons.mp hrest
  have hout : ∀ a ∈ b.inorder, a ≠ f.elem := fun a ha =>
    hdisj a ha _ (List.mem_cons_of_mem _ (mem_surrounding_cons.mpr (.inl rfl)))
  have hin : ∀ a ∈ surrounding (f :: z), a ≠ ptr m b := fun a ha heq => hptr.2 (heq ▸ ha)
  have hf : f.elem ≠ ptr m b := hin _ (mem_surrounding_cons.mpr (.inl rfl))
  obtain ⟨up, hlinked⟩ := h.linked
  obtain ⟨haround, hplace⟩ := linked_plug.mp hlinked
  obtain ⟨-, -, hlb⟩ := linked_fork.mp hplace
  refine h.relinked (h.root.trans (ptr_plug_cons f _ _)) ⟨up, linked_plug.mpr ⟨?_, ?_⟩⟩ rfl rfl
    h.sentinelBlack ?_ ?_
  · refine haround.refill rfl hz ?_ ?_ (if_neg hf) rfl fun a ha hne => ⟨fun e => ?_, ?_, rfl⟩
    · exact if_pos ⟨rfl, rfl⟩
    · exact if_neg fun h => Side.other_ne _ h.1
    · exact if_neg fun h => hne h.2
    · exact if_neg (hin a ha)
  · refine hlb.reparent rfl hb (fun a ha hne => ⟨fun e => ?_, ?_, rfl⟩) fun hne => ⟨fun e => ?_, ?_, rfl⟩
    · exact if_neg fun h => hout a ha h.2
    · exact if_neg hne
    · exact if_neg fun h => hf h.2.symm
    · exact if_pos rfl
  · refine (inorder_plug_perm (f :: z) b).nodup_iff.mpr ?_
    exact List.nodup_append.mpr ⟨hb, hz, fun a ha q hq => hdisj a ha q (List.mem_cons_of_mem _ hq)⟩
  · intro a ha
    rw [(inorder_plug_perm _ _).mem_iff, List.mem_append] at ha ⊢
    exact ha.imp_left fun ha => mem_inorder_fork.mpr (.inr (.inr ha))

theorem Holds.splice_root (h : Holds m (fork d c leaf x b)) :
    ∃ m', Mem.setRed { m with root := ptr m b } (ptr m b) false = some m' ∧ Sheds x m m' ∧
      Holds m' (b.paint .black) := by
  have hperm := inorder_fork_perm (d := d) (c := c) (a := leaf) (x := x) (b := b)
  have hchild : Holds { m with root := ptr m b } (plug [] b) := by
    obtain ⟨up, hlinked⟩ := h.linked
    obtain ⟨-, -, hlb⟩ := linked_fork.mp hlinked
    refine h.relinked rfl ⟨x, hlb.congr rfl fun a _ => ⟨fun _ => rfl, rfl, rfl⟩⟩ rfl rfl
      h.sentinelBlack ?_ fun a ha => mem_inorder_fork.mpr (.inr (.inr ha))
    exact (List.nodup_cons.mp (hperm.nodup_iff.mp h.nodup)).2
  obtain ⟨m', hm', hk, h'⟩ := hchild.blacken
  exact ⟨m', hm', ⟨hk.live, hk.sentinel, fun q _ => congrFun hk.key q⟩, h'⟩

theorem Holds.scrub (h : Holds m t) (hlive : m.live p = true) (hp : p ≠ m.sentinel)
    (hout : p ∉ t.inorder) :
    ∃ m', scrub p m = some m' ∧ Sheds p m m' ∧ Holds m' t ∧
      m'.parent m.sentinel = m.parent m.sentinel := by
  refine ⟨_, and_then (write_live m _ hlive) (and_then (write_live _ _ hlive)
    (and_then (write_live _ _ hlive) (write_live _ _ hlive))), ⟨rfl, rfl, fun q hq => if_neg hq⟩, ?_,
      if_neg hp.symm⟩
  obtain ⟨up, hlinked⟩ := h.linked
  refine h.relinked h.root ⟨up, hlinked.congr rfl fun a ha => ?_⟩ rfl rfl h.sentinelBlack h.nodup
    fun a ha => ha
  have hap : a ≠ p := fun heq => hout (heq ▸ ha)
  simp [SameNode, Mem.putChild, Mem.putParent, Mem.putKey, hap]

def substituted (q lp rp up : Ptr) (red : Bool) (z : List (Frame Ptr)) (m : Mem) : Mem :=
  adopted rp q (adopted lp q (hung z q ((((m.putChild .left q lp).putChild .right q rp).putParent q
    (above up z)).putRed q red)))

section Substitution
variable {lp rp up : Ptr} {red : Bool}

theorem substituted_child (e : Side) (a : Ptr) :
    (substituted q lp rp up red z m).child e a =
      if z.head?.any fun f => e = f.side ∧ a = f.elem then q
      else if a = q then (if e = .left then lp else rp) else m.child e a := by
  rw [substituted, adopted_child, adopted_child, hung_child]
  refine if_congr Iff.rfl rfl ?_
  cases e <;> simp [Mem.putChild, Mem.putParent, Mem.putRed]

theorem substituted_parent (a : Ptr) :
    (substituted q lp rp up red z m).parent a =
      if (a = rp ∨ a = lp) ∧ a ≠ m.sentinel then q else if a = q then above up z else m.parent a := by
  rw [substituted, adopted_parent, adopted_parent, adopted_sentinel, hung_sentinel, hung_parent]
  change (if a = rp ∧ a ≠ m.sentinel then q else if a = lp ∧ a ≠ m.sentinel then q
    else if a = q then above up z else m.parent a) = _
  split_ifs <;> tauto

variable (hq : m.live q = true) (hp : m.live p = true)
  (hlp : m.live lp = true) (hrp : m.live rp = true) (hpq : p ≠ q) (hl : m.child .left p = lp)
  (hr : m.child .right p = rp) (hup : m.parent p = above up z) (hred : m.red p = red)
  (hplace : InPlace m z p) (htop : ∀ f ∈ z.head?, f.elem ≠ q)
include hq hp hlp hrp hpq hl hr hup hred hplace htop

theorem substitute_eq : substitute q p m = some (substituted q lp rp up red z m) := by
  have hplace' : InPlace ((((m.putChild .left q lp).putChild .right q rp).putParent q
      (above up z)).putRed q red) z p := by
    refine hplace.congr rfl rfl fun e f hf => ?_
    simp [Mem.putChild, Mem.putParent, Mem.putRed, htop f hf]
  refine and_then (childOf_eq m hp hl) (and_then (write_live m _ hq) (and_then (childOf_eq _ hp ?_)
    (and_then (write_live _ _ hq) (and_then (parentOf_eq _ hp hup) (and_then (write_live _ _ hq)
      (and_then (isRed_eq _ hp hred) (and_then (write_live _ _ hq) (and_then hplace'.replace
        (and_then (childOf_eq _ ?_ ?_) (and_then (adopt_eq ?_) (and_then (childOf_eq _ ?_ ?_)
          (adopt_eq ?_))))))))))))
  · simpa [Mem.putChild, hpq] using hr
  · rwa [hung_live]
  · rw [hung_child, any_head_of_ne htop, if_neg Bool.false_ne_true]
    simp [Mem.putChild, Mem.putParent, Mem.putRed]
  · rwa [hung_live]
  · rwa [adopted_live, hung_live]
  · rw [adopted_child, hung_child, any_head_of_ne htop, if_neg Bool.false_ne_true]
    simp [Mem.putChild, Mem.putParent, Mem.putRed]
  · rwa [adopted_live, hung_live]

theorem substitute_fields :
    ∃ m', substitute q p m = some m' ∧ m'.live = m.live ∧ m'.key = m.key ∧
      m'.sentinel = m.sentinel ∧ m'.root = (if z = [] then q else m.root) ∧
      (∀ a, m'.red a = if a = q then red else m.red a) ∧
      (∀ a, m'.parent a = if (a = rp ∨ a = lp) ∧ a ≠ m.sentinel then q
        else if a = q then above up z else m.parent a) ∧
      ∀ e a, m'.child e a = if z.head?.any fun f => e = f.side ∧ a = f.elem then q
        else if a = q then (if e = .left then lp else rp) else m.child e a := by
  refine ⟨_, substitute_eq hq hp hlp hrp hpq hl hr hup hred hplace htop, ?_, ?_, ?_, ?_, ?_,
    substituted_parent, substituted_child⟩ <;>
    simp [substituted, hung_root, Mem.putRed, Mem.putParent, Mem.putChild]

end Substitution

theorem putParent_putParent (a v v' : Ptr) : (m.putParent a v).putParent a v' = m.putParent a v' := by
  simp only [Mem.putParent, Mem.mk.injEq, and_true, true_and]
  funext b
  split <;> rfl

theorem putParent_self (a : Ptr) : m.putParent a (m.parent a) = m := by
  have hsame : (fun b => if b = a then m.parent a else m.parent b) = m.parent := by
    funext b
    split
    · next h => rw [h]
    · rfl
  rw [Mem.putParent, hsame]

theorem Holds.substitute (h : Holds m (plug z (.node c l p r))) (hlive : m.live q = true)
    (hq : q ≠ m.sentinel) (hnew : q ∉ (plug z (.node c l p r)).inorder) (v : Ptr) :
    ∃ m', substitute q p (m.putParent (ptr m r) v) = some m' ∧ m'.live = m.live ∧ m'.key = m.key ∧
      m'.sentinel = m.sentinel ∧ Holds m' (plug z (.node c l q r)) ∧
      m'.parent m.sentinel = (m.putParent (ptr m r) v).parent m.sentinel := by
  obtain ⟨up, hlinked⟩ := h.linked
  obtain ⟨haround, ⟨hpl, hpr, hpup, hpc⟩, hll, hlr⟩ := linked_plug.mp hlinked
  have hnodup := h.nodup_plug
  rw [(inorder_plug_perm z _).mem_iff] at hnew
  simp only [RedBlack.Tree.inorder, List.nodup_append, List.nodup_cons, List.mem_append, List.mem_cons,
    not_or] at hnodup hnew
  obtain ⟨⟨hl, ⟨hpr', hr⟩, hlpr⟩, hz, hlrz⟩ := hnodup
  obtain ⟨⟨hql, hqp, hqr⟩, hqz⟩ := hnew
  have hmem : ∀ a, a ∈ l.inorder ∨ a = p ∨ a ∈ r.inorder ∨ a ∈ surrounding z →
      m.live a = true ∧ a ≠ m.sentinel := by
    intro a ha
    refine h.mem_plug ?_
    rw [RedBlack.Tree.inorder, List.mem_append, List.mem_cons]
    tauto
  obtain ⟨hplive, hps⟩ := hmem p (.inr (.inl rfl))
  have hlq : ∀ a ∈ l.inorder, a ≠ q := fun a ha heq => hql (heq ▸ ha)
  have hrq : ∀ a ∈ r.inorder, a ≠ q := fun a ha heq => hqr (heq ▸ ha)
  have hzq : ∀ a ∈ surrounding z, a ≠ q := fun a ha heq => hqz (heq ▸ ha)
  have hleft : Holds m (plug (⟨.left, c, p, r⟩ :: z) l) := h
  have hright : Holds m (plug (⟨.right, c, p, l⟩ :: z) r) := h
  have hin : InPlace m z p := h.inPlace (.inl (by simp))
  have hpup' : (m.putParent (ptr m r) v).parent p = above up z := (if_neg (ne_ptr hps hpr')).trans hpup
  obtain ⟨m', heval, hlv, hky, hs, hrt, hred, hpar, hch⟩ :=
    substitute_fields (m := m.putParent (ptr m r) v) hlive hplive hleft.ptr_live hright.ptr_live
      (Ne.symm hqp) hpl hpr hpup' hpc
      ⟨hin.root, hin.live, hin.near, hin.far⟩ fun f hf heq => hqz (heq ▸ mem_surrounding_of_head hf)
  have hmem' : ∀ a ∈ (plug z (.node c l q r)).inorder, m.live a = true ∧ a ≠ m.sentinel := by
    intro a ha
    rw [(inorder_plug_perm _ _).mem_iff, RedBlack.Tree.inorder] at ha
    simp only [List.mem_append, List.mem_cons] at ha
    by_cases haq : a = q
    · exact haq ▸ ⟨hlive, hq⟩
    · exact hmem a (by tauto)
  refine ⟨m', heval, hlv, hky, hs, ⟨h.root_rehung hs hrt, ⟨up, linked_plug.mpr ⟨?_, ⟨?_, ?_, ?_, ?_⟩, ?_,
    ?_⟩⟩, ?_, ?_, ?_, ?_, ?_⟩, ?_⟩
  · refine haround.rehang hs hz (fun e a ha => ?_) (fun a ha => ?_) fun a ha => ?_
    · rw [hch]
      exact if_congr Iff.rfl rfl (if_neg (hzq a ha))
    · have hout : a ≠ ptr m r ∧ a ≠ ptr m l := by
        have has := (hmem a (.inr (.inr (.inr ha)))).2
        exact ⟨ne_ptr has fun h => hlrz a (.inr (.inr h)) a ha rfl,
          ne_ptr has fun h => hlrz a (.inl h) a ha rfl⟩
      rw [hpar, if_neg (by tauto), if_neg (hzq a ha)]
      exact if_neg hout.1
    · rw [hred, if_neg (hzq a ha)]
      rfl
  · rw [hch, any_head_surrounding hqz, if_neg Bool.false_ne_true, if_pos rfl, if_pos rfl, ptr_congr hs]
    rfl
  · rw [hch, any_head_surrounding hqz, if_neg Bool.false_ne_true, if_pos rfl, if_neg (by decide),
      ptr_congr hs]
    rfl
  · rw [hpar, if_neg, if_pos rfl]
    rintro ⟨heq | heq, -⟩
    · exact ne_ptr hq hqr heq
    · exact ne_ptr hq hql heq
  · rw [hred, if_pos rfl]
  · refine hll.moved hs hl (fun e a ha => ?_) (fun a ha => ?_) fun a ha => ?_
    · rw [hch, any_head_surrounding fun h => hlrz a (.inl ha) a h rfl, if_neg Bool.false_ne_true,
        if_neg (hlq a ha)]
      rfl
    · rw [hred, if_neg (hlq a ha)]
      rfl
    · have has := (hmem a (.inl ha)).2
      have har : a ≠ ptr m r := ne_ptr has fun h => hlpr a ha a (.inr h) rfl
      rw [hpar, if_neg (hlq a ha)]
      refine if_congr ⟨fun h => h.1.resolve_left har, fun h => ⟨.inr h, has⟩⟩ rfl (if_neg har)
  · refine hlr.moved hs hr (fun e a ha => ?_) (fun a ha => ?_) fun a ha => ?_
    · rw [hch, any_head_surrounding fun h => hlrz a (.inr (.inr ha)) a h rfl, if_neg Bool.false_ne_true,
        if_neg (hrq a ha)]
      rfl
    · rw [hred, if_neg (hrq a ha)]
      rfl
    · have has := (hmem a (.inr (.inr (.inl ha)))).2
      have hal : a ≠ ptr m l := ne_ptr has fun h => hlpr a h a (.inr ha) rfl
      rw [hpar, if_neg (hrq a ha)]
      by_cases har : a = ptr m r
      · rw [if_pos ⟨.inl har, has⟩, if_pos har]
      · rw [if_neg (by tauto), if_neg har]
        exact if_neg har
  · intro a ha
    rw [hlv]
    exact (hmem' a ha).1
  · refine (inorder_plug_perm _ _).nodup_iff.mpr ?_
    simp only [RedBlack.Tree.inorder, List.nodup_append, List.nodup_cons, List.mem_append, List.mem_cons]
    refine ⟨⟨hl, ⟨hqr, hr⟩, fun a ha b hb => ?_⟩, hz, fun a ha b hb => ?_⟩
    · rcases hb with rfl | hb
      · exact hlq a ha
      · exact hlpr a ha b (.inr hb)
    · rcases ha with ha | rfl | ha
      · exact hlrz a (.inl ha) b hb
      · exact (hzq b hb).symm
      · exact hlrz a (.inr (.inr ha)) b hb
  · intro haway
    rw [hs] at haway
    exact (hmem' _ haway).2 rfl
  · rw [hlv, hs]
    exact h.sentinelLive
  · rw [hred, hs]
    exact (if_neg hq.symm).trans h.sentinelBlack
  · rw [hpar, if_neg fun h => h.2 rfl, if_neg hq.symm]

end Splice

end Aware.Tree
