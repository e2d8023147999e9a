import Aware.Tree.Model

/-!
# Trees in memory

When the nodes in memory are linked like a tree, and what colouring and rotating does to it.
-/
namespace Aware.Tree
open RedBlack hiding Tree
open RedBlack.Tree (fork leaf fork_ne_leaf mem_inorder_fork)

abbrev Nodes := RedBlack.Tree Ptr

section Links
variable (m : Mem)

def ptr : Nodes → Ptr
  | .leaf => m.sentinel
  | .node _ _ x _ => x

/-- The nodes of the tree have its links and colours, and the root has the parent `up`. -/
def Linked : Ptr → Nodes → Prop
  | _, .leaf => True
  | up, .node c l x r =>
    (m.child .left x = ptr m l ∧ m.child .right x = ptr m r ∧ m.parent x = up ∧
      m.red x = decide (c = .red)) ∧ Linked x l ∧ Linked x r

def above (up : Ptr) : List (Frame Ptr) → Ptr
  | [] => up
  | f :: _ => f.elem

def Around (up : Ptr) : List (Frame Ptr) → Ptr → Prop
  | [], _ => True
  | f :: z, hole =>
    (m.child f.side f.elem = hole ∧ m.child f.side.other f.elem = ptr m f.sibling ∧
      m.parent f.elem = above up z ∧ m.red f.elem = decide (f.color = .red)) ∧
    Linked m f.elem f.sibling ∧ Around up z f.elem

end Links

def surrounding (z : List (Frame Ptr)) : List Ptr :=
  z.flatMap fun f => f.elem :: f.sibling.inorder

theorem mem_surrounding_cons {f : Frame Ptr} {z : List (Frame Ptr)} {p : Ptr} :
    p ∈ surrounding (f :: z) ↔ p = f.elem ∨ p ∈ f.sibling.inorder ∨ p ∈ surrounding z := by
  simp [surrounding]

theorem inorder_plug_perm (z : List (Frame Ptr)) (t : Nodes) :
    (plug z t).inorder.Perm (t.inorder ++ surrounding z) := by
  induction z generalizing t with
  | nil => simp [plug, surrounding]
  | cons f z ih =>
    obtain ⟨d, c, x, s⟩ := f
    refine (ih _).trans ?_
    have hfork : (fork d c t x s).inorder.Perm (t.inorder ++ x :: s.inorder) := by
      cases d with
      | left => exact .refl _
      | right =>
        change (s.inorder ++ x :: t.inorder).Perm _
        refine List.perm_append_comm.trans ?_
        exact (List.perm_middle).symm
    refine (hfork.append_right _).trans ?_
    simp [surrounding]

section Facts
variable {m m' : Mem} {up : Ptr} {t a b : Nodes} {x : Ptr} {d : Side} {c : Color}
  {z : List (Frame Ptr)}

@[simp] theorem ptr_leaf : ptr m leaf = m.sentinel := rfl

@[simp] theorem ptr_fork : ptr m (fork d c a x b) = x := by
  cases d <;> rfl

@[simp] theorem ptr_paint (c : Color) : ptr m (t.paint c) = ptr m t := by
  cases t <;> rfl

theorem ptr_mem (h : t ≠ leaf) : ptr m t ∈ t.inorder := by
  cases t with
  | leaf => exact absurd rfl h
  | node c l x r => exact List.mem_append_right _ List.mem_cons_self

theorem ne_ptr {p : Ptr} (hs : p ≠ m.sentinel) (hp : p ∉ t.inorder) : p ≠ ptr m t := by
  by_cases ht : t = leaf
  · rw [ht]
    exact hs
  · intro heq
    exact hp (heq ▸ ptr_mem ht)

theorem linked_fork : Linked m up (fork d c a x b) ↔
    (m.child d x = ptr m a ∧ m.child d.other x = ptr m b ∧ m.parent x = up ∧
      m.red x = decide (c = .red)) ∧ Linked m x a ∧ Linked m x b := by
  cases d with
  | left => simp only [fork, Linked, Side.other]
  | right =>
    simp only [fork, Linked, Side.other]
    tauto

theorem linked_plug : Linked m up (plug z t) ↔ Around m up z (ptr m t) ∧ Linked m (above up z) t := by
  induction z generalizing t with
  | nil => simp [plug, Around, above]
  | cons f z ih =>
    rw [plug, ih, linked_fork, ptr_fork, Around, above]
    tauto

def SameNode (m m' : Mem) (p : Ptr) : Prop :=
  (∀ d, m'.child d p = m.child d p) ∧ m'.parent p = m.parent p ∧ m'.red p = m.red p

theorem ptr_congr (h : m'.sentinel = m.sentinel) : ptr m' t = ptr m t := by
  cases t with
  | leaf => exact h
  | node c l x r => rfl

theorem Linked.congr (hl : Linked m up t) (hs : m'.sentinel = m.sentinel)
    (h : ∀ p ∈ t.inorder, SameNode m m' p) : Linked m' up t := by
  induction t generalizing up with
  | leaf => trivial
  | node c l x r ihl ihr =>
    obtain ⟨⟨hleft, hright, hup, hred⟩, hl, hr⟩ := hl
    obtain ⟨hchild, hparent, hcolor⟩ := h x (List.mem_append_right _ List.mem_cons_self)
    refine ⟨⟨?_, ?_, ?_, ?_⟩, ihl hl ?_, ihr hr ?_⟩
    · rw [hchild, hleft, ptr_congr hs]
    · rw [hchild, hright, ptr_congr hs]
    · rw [hparent, hup]
    · rw [hcolor, hred]
    · exact fun p hp => h p (List.mem_append_left _ hp)
    · exact fun p hp => h p (List.mem_append_right _ (List.mem_cons_of_mem _ hp))

theorem Linked.reparent {up' : Ptr} (hl : Linked m up t) (hs : m'.sentinel = m.sentinel)
    (hnodup : t.inorder.Nodup) (h : ∀ p ∈ t.inorder, p ≠ ptr m t → SameNode m m' p)
    (hroot : t ≠ leaf → (∀ d, m'.child d (ptr m t) = m.child d (ptr m t)) ∧
      m'.parent (ptr m t) = up' ∧ m'.red (ptr m t) = m.red (ptr m t)) : Linked m' up' t := by
  cases t with
  | leaf => trivial
  | node c l x r =>
    obtain ⟨⟨hleft, hright, -, hred⟩, hl, hr⟩ := hl
    obtain ⟨hchild, hparent, hcolor⟩ := hroot (by simp)
    rw [RedBlack.Tree.inorder, List.nodup_append] at hnodup
    obtain ⟨-, hxr, hdisj⟩ := hnodup
    have hx : x ∉ r.inorder := (List.nodup_cons.mp hxr).1
    refine ⟨⟨?_, ?_, hparent, ?_⟩, hl.congr hs ?_, hr.congr hs ?_⟩
    · rw [ptr_congr hs, ← hleft]
      exact hchild _
    · rw [ptr_congr hs, ← hright]
      exact hchild _
    · rw [← hred]
      exact hcolor
    · intro p hp
      exact h p (List.mem_append_left _ hp) (hdisj p hp x List.mem_cons_self)
    · intro p hp
      refine h p (List.mem_append_right _ (List.mem_cons_of_mem _ hp)) ?_
      rintro rfl
      exact hx hp

theorem Linked.moved {up' : Ptr} (hl : Linked m up t) (hs : m'.sentinel = m.sentinel)
    (hnodup : t.inorder.Nodup) (hchild : ∀ e, ∀ a ∈ t.inorder, m'.child e a = m.child e a)
    (hred : ∀ a ∈ t.inorder, m'.red a = m.red a)
    (hparent : ∀ a ∈ t.inorder, m'.parent a = if a = ptr m t then up' else m.parent a) :
    Linked m' up' t := by
  refine hl.reparent hs hnodup (fun a ha hne => ⟨fun e => hchild e a ha, ?_, hred a ha⟩) fun hne => ?_
  · rw [hparent a ha, if_neg hne]
  · have ha := ptr_mem (m := m) hne
    exact ⟨fun e => hchild e _ ha, (hparent _ ha).trans (if_pos rfl), hred _ ha⟩

theorem surrounding_cons (f : Frame Ptr) (z : List (Frame Ptr)) :
    surrounding (f :: z) = f.elem :: (f.sibling.inorder ++ surrounding z) := by
  simp [surrounding]

theorem Around.congr {hole : Ptr} (ha : Around m up z hole) (hs : m'.sentinel = m.sentinel)
    (h : ∀ p ∈ surrounding z, SameNode m m' p) : Around m' up z hole := by
  induction z generalizing hole with
  | nil => trivial
  | cons f z ih =>
    obtain ⟨⟨hhole, hsib, hup, hred⟩, hl, ha⟩ := ha
    obtain ⟨hchild, hparent, hcolor⟩ := h f.elem (mem_surrounding_cons.mpr (.inl rfl))
    refine ⟨⟨?_, ?_, ?_, ?_⟩, hl.congr hs ?_, ih ha ?_⟩
    · rw [hchild, hhole]
    · rw [hchild, hsib, ptr_congr hs]
    · rw [hparent, hup]
    · rw [hcolor, hred]
    · exact fun p hp => h p (mem_surrounding_cons.mpr (.inr (.inl hp)))
    · exact fun p hp => h p (mem_surrounding_cons.mpr (.inr (.inr hp)))

theorem Around.refill {f : Frame Ptr} {hole hole' : Ptr} (ha : Around m up (f :: z) hole)
    (hs : m'.sentinel = m.sentinel) (hnodup : (surrounding (f :: z)).Nodup)
    (hhole : m'.child f.side f.elem = hole')
    (hother : m'.child f.side.other f.elem = m.child f.side.other f.elem)
    (hup : m'.parent f.elem = m.parent f.elem) (hred : m'.red f.elem = m.red f.elem)
    (hrest : ∀ p ∈ surrounding (f :: z), p ≠ f.elem → SameNode m m' p) :
    Around m' up (f :: z) hole' := by
  obtain ⟨⟨-, hsib, hfup, hfc⟩, hlsib, hz⟩ := ha
  rw [surrounding_cons] at hnodup hrest
  have hsame : ∀ p ∈ f.sibling.inorder ++ surrounding z, SameNode m m' p := by
    intro p hp
    refine hrest p (List.mem_cons_of_mem _ hp) ?_
    rintro rfl
    exact (List.nodup_cons.mp hnodup).1 hp
  refine ⟨⟨hhole, ?_, hup.trans hfup, hred.trans hfc⟩,
    hlsib.congr hs fun p hp => hsame p (List.mem_append_left _ hp),
    hz.congr hs fun p hp => hsame p (List.mem_append_right _ hp)⟩
  rw [hother, hsib, ptr_congr hs]

end Facts

/-- The tree is the one in memory. The parent of its root is not looked at. -/
structure Holds (m : Mem) (t : Nodes) : Prop where
  root : m.root = ptr m t
  linked : ∃ up, Linked m up t
  live : ∀ p ∈ t.inorder, m.live p = true
  nodup : t.inorder.Nodup
  away : m.sentinel ∉ t.inorder
  sentinelLive : m.live m.sentinel = true
  sentinelBlack : m.red m.sentinel = false

theorem Holds.relinked {m m' : Mem} {t t' : Nodes} (h : Holds m t) (hroot : m'.root = ptr m' t')
    (hlinked : ∃ up, Linked m' up t') (hlive : m'.live = m.live) (hs : m'.sentinel = m.sentinel)
    (hred : m'.red m.sentinel = false) (hnodup : t'.inorder.Nodup)
    (hsub : ∀ a ∈ t'.inorder, a ∈ t.inorder) : Holds m' t' where
  root := hroot
  linked := hlinked
  live a ha := by
    rw [hlive]
    exact h.live a (hsub a ha)
  nodup := hnodup
  away hmem := by
    rw [hs] at hmem
    exact h.away (hsub _ hmem)
  sentinelLive := by
    rw [hlive, hs]
    exact h.sentinelLive
  sentinelBlack := by
    rw [hs]
    exact hred

section Access
variable (m : Mem) {p : Ptr}

@[simp] theorem read_live {β : Type} (field : Ptr → β) (h : m.live p = true) :
    m.read field p = some (field p) :=
  if_pos h

@[simp] theorem write_live (m' : Mem) (h : m.live p = true) : m.write p m' = some m' :=
  if_pos h

theorem childOf_eq {d : Side} {q : Ptr} (h : m.live p = true) (hq : m.child d p = q) :
    m.childOf d p = some q := by
  rw [Mem.childOf, read_live m _ h, hq]

theorem parentOf_eq {q : Ptr} (h : m.live p = true) (hq : m.parent p = q) :
    m.parentOf p = some q := by
  rw [Mem.parentOf, read_live m _ h, hq]

theorem isRed_eq {v : Bool} (h : m.live p = true) (hv : m.red p = v) : m.isRed p = some v := by
  rw [Mem.isRed, read_live m _ h, hv]

theorem and_then {α β : Type} {o : Option α} {f : α → Option β} {a : α} {b : β} (ho : o = some a)
    (hf : f a = some b) : (o >>= f) = some b := by
  rw [ho]
  exact hf

end Access

structure Keeps (m m' : Mem) : Prop where
  live : m'.live = m.live
  key : m'.key = m.key
  sentinel : m'.sentinel = m.sentinel
  parent : m'.parent m.sentinel = m.parent m.sentinel

theorem Keeps.trans {m m' m'' : Mem} (h : Keeps m m') (h' : Keeps m' m'') : Keeps m m'' where
  live := h'.live.trans h.live
  key := h'.key.trans h.key
  sentinel := h'.sentinel.trans h.sentinel
  parent := by
    rw [← h.parent, ← h.sentinel]
    exact h'.parent

section Place
variable {m : Mem} {t a b e : Nodes} {x y : Ptr} {d : Side} {c c' : Color} {z : List (Frame Ptr)}

theorem Holds.nodup_plug (h : Holds m (plug z t)) : (t.inorder ++ surrounding z).Nodup :=
  (inorder_plug_perm z t).nodup_iff.mp h.nodup

variable {p q up : Ptr} {t' : Nodes} {f : Frame Ptr} {m' : Mem}

theorem Holds.mem_plug (h : Holds m (plug z t)) (hp : p ∈ t.inorder ∨ p ∈ surrounding z) :
    m.live p = true ∧ p ≠ m.sentinel := by
  have hmem : p ∈ (plug z t).inorder :=
    (inorder_plug_perm z t).mem_iff.mpr (List.mem_append.mpr hp)
  refine ⟨h.live p hmem, ?_⟩
  rintro rfl
  exact h.away hmem

theorem ptr_plug_mem (f : Frame Ptr) : ptr m (plug (f :: z) t) ∈ surrounding (f :: z) := by
  induction z generalizing f t with
  | nil =>
    rw [plug, plug, ptr_fork]
    exact mem_surrounding_cons.mpr (.inl rfl)
  | cons g z ih =>
    rw [plug]
    exact mem_surrounding_cons.mpr (.inr (.inr (ih g)))

theorem Holds.root_eq_iff (h : Holds m (plug z t)) : ptr m t = m.root ↔ z = [] := by
  constructor
  · intro hroot
    cases z with
    | nil => rfl
    | cons f z =>
      rw [h.root] at hroot
      have htop : ptr m (plug (f :: z) t) ∈ surrounding (f :: z) := ptr_plug_mem f
      by_cases ht : t = leaf
      · subst ht
        exact absurd hroot.symm (h.mem_plug (.inr htop)).2
      · have hnodup := h.nodup_plug
        exact absurd rfl ((List.nodup_append.mp hnodup).2.2 _ (ptr_mem ht) _ (hroot ▸ htop))
  · rintro rfl
    exact h.root.symm

theorem ptr_plug_cons (f : Frame Ptr) (t t' : Nodes) :
    ptr m (plug (f :: z) t) = ptr m (plug (f :: z) t') := by
  induction z generalizing f t t' with
  | nil => simp only [plug, ptr_fork]
  | cons g z ih => exact ih g _ _

theorem ptr_plug_congr (h : ptr m t = ptr m t') : ptr m (plug z t) = ptr m (plug z t') := by
  cases z with
  | nil => exact h
  | cons f z => exact ptr_plug_cons f t t'

theorem inorder_plug_congr (h : t.inorder = t'.inorder) :
    (plug z t).inorder = (plug z t').inorder := by
  rw [inorder_plug, inorder_plug, h]

theorem Holds.ptr_live (h : Holds m (plug z t)) : m.live (ptr m t) = true := by
  by_cases ht : t = leaf
  · subst ht
    exact h.sentinelLive
  · exact (h.mem_plug (.inl (ptr_mem ht))).1

theorem Holds.ptr_eq_sentinel (h : Holds m (plug z t)) : ptr m t = m.sentinel ↔ t = leaf := by
  constructor
  · intro heq
    by_contra ht
    exact (h.mem_plug (.inl (ptr_mem ht))).2 heq
  · rintro rfl
    rfl

theorem Holds.ptr_notMem (h : Holds m (plug z t)) : ptr m t ∉ surrounding z := by
  intro hmem
  by_cases ht : t = leaf
  · subst ht
    exact (h.mem_plug (.inr hmem)).2 rfl
  · exact (List.nodup_append.mp h.nodup_plug).2.2 _ (ptr_mem ht) _ hmem rfl

theorem sameNode_putRed {v : Bool} (h : q ≠ p) : SameNode m (m.putRed p v) q :=
  ⟨fun _ => rfl, rfl, if_neg h⟩

theorem Linked.paint (hnodup : t.inorder.Nodup) (h : Linked m up t) :
    Linked (m.putRed (ptr m t) (decide (c = .red))) up (t.paint c) := by
  cases t with
  | leaf => trivial
  | node c' l x r =>
    obtain ⟨⟨hl, hr, hup, -⟩, hll, hlr⟩ := h
    rw [RedBlack.Tree.inorder, List.nodup_append, List.nodup_cons] at hnodup
    obtain ⟨-, ⟨hxr, -⟩, hxl⟩ := hnodup
    refine ⟨⟨hl, hr, hup, if_pos rfl⟩, hll.congr rfl ?_, hlr.congr rfl ?_⟩
    · intro p hp
      exact sameNode_putRed (hxl p hp x List.mem_cons_self)
    · intro p hp
      refine sameNode_putRed ?_
      rintro rfl
      exact hxr hp

theorem Holds.paint (h : Holds m (plug z t)) (hc : t = leaf → c = .black) :
    ∃ m', m.setRed (ptr m t) (decide (c = .red)) = some m' ∧ Keeps m m' ∧
      Holds m' (plug z (t.paint c)) := by
  refine ⟨m.putRed (ptr m t) (decide (c = .red)), write_live m _ h.ptr_live, ⟨rfl, rfl, rfl, rfl⟩, ?_⟩
  obtain ⟨up, hlinked⟩ := h.linked
  obtain ⟨haround, hplace⟩ := linked_plug.mp hlinked
  have horder : (plug z (t.paint c)).inorder = (plug z t).inorder :=
    inorder_plug_congr (RedBlack.Tree.inorder_paint c t)
  refine h.relinked (h.root.trans (ptr_plug_congr (ptr_paint c).symm)) ⟨up, linked_plug.mpr ⟨?_,
    hplace.paint (List.nodup_append.mp h.nodup_plug).1⟩⟩ rfl rfl ?_ (horder ▸ h.nodup) fun a ha => horder ▸ ha
  · have hptr : ptr (m.putRed (ptr m t) (decide (c = .red))) (t.paint c) = ptr m t := ptr_paint c
    rw [hptr]
    refine haround.congr rfl fun p hp => sameNode_putRed ?_
    rintro rfl
    exact h.ptr_notMem hp
  · change (if m.sentinel = ptr m t then decide (c = .red) else m.red m.sentinel) = false
    split
    · next heq =>
        by_cases ht : t = leaf
        · rw [hc ht]
          rfl
        · exact absurd heq.symm (h.mem_plug (.inl (ptr_mem ht))).2
    · exact h.sentinelBlack

theorem Holds.childOf (h : Holds m (plug z (fork d c a x b))) : m.childOf d x = some (ptr m a) := by
  obtain ⟨up, hlinked⟩ := h.linked
  have hlive := h.ptr_live
  rw [ptr_fork] at hlive
  exact childOf_eq m hlive (linked_fork.mp (linked_plug.mp hlinked).2).1.1

theorem Holds.childOf_other (h : Holds m (plug z (fork d c a x b))) :
    m.childOf d.other x = some (ptr m b) := by
  rw [← RedBlack.Tree.fork_other] at h
  exact h.childOf

theorem Holds.isRed (h : Holds m (plug z t)) : m.isRed (ptr m t) = some t.isRed := by
  refine isRed_eq m h.ptr_live ?_
  obtain ⟨up, hlinked⟩ := h.linked
  have hplace := (linked_plug.mp hlinked).2
  cases t with
  | leaf => exact h.sentinelBlack
  | node c l x r =>
    refine hplace.1.2.2.2.trans ?_
    cases c <;> rfl

theorem Holds.parentOf (h : Holds m (plug (f :: z) t)) (ht : t ≠ leaf) :
    m.parentOf (ptr m t) = some f.elem := by
  obtain ⟨up, hlinked⟩ := h.linked
  obtain ⟨-, hplace⟩ := linked_plug.mp hlinked
  refine parentOf_eq m h.ptr_live ?_
  cases t with
  | leaf => exact absurd rfl ht
  | node c l x r => exact hplace.1.2.2.1

theorem plug_sibling (f : Frame Ptr) :
    plug (f :: z) t = plug (⟨f.side.other, f.color, f.elem, t⟩ :: z) f.sibling := by
  simp only [plug, RedBlack.Tree.fork_other]

theorem Holds.far (h : Holds m (plug z (fork d c a x b))) : Holds m (plug (⟨d.other, c, x, a⟩ :: z) b) := by
  rw [plug, RedBlack.Tree.fork_other]
  exact h

theorem Holds.ptr_ne_sibling (h : Holds m (plug (f :: z) t))
    (hne : t ≠ leaf ∨ f.sibling ≠ leaf) : ptr m t ≠ ptr m f.sibling := by
  have hnodup := h.nodup_plug
  intro heq
  by_cases ht : t = leaf
  · have hs := hne.resolve_left (not_not_intro ht)
    have hmem : ptr m f.sibling ∈ surrounding (f :: z) :=
      mem_surrounding_cons.mpr (.inr (.inl (ptr_mem hs)))
    rw [ht] at heq
    exact (h.mem_plug (.inr hmem)).2 heq.symm
  · by_cases hs : f.sibling = leaf
    · rw [hs] at heq
      exact (h.mem_plug (.inl (ptr_mem ht))).2 heq
    · refine (List.nodup_append.mp hnodup).2.2 _ (ptr_mem ht) _ ?_ heq
      exact mem_surrounding_cons.mpr (.inr (.inl (ptr_mem hs)))

theorem Holds.sideOf (h : Holds m (plug (f :: z) t))
    (hne : t ≠ leaf ∨ f.sibling ≠ leaf) : sideOf m (ptr m t) f.elem = some f.side := by
  have hptr := h.ptr_ne_sibling hne
  have hnode : Holds m (plug z (fork f.side f.color t f.elem f.sibling)) := h
  have hnear := hnode.childOf
  have hfar := hnode.childOf_other
  rw [Tree.sideOf]
  cases hd : f.side with
  | left =>
    rw [hd] at hnear
    rw [hnear]
    exact congrArg some (if_pos rfl)
  | right =>
    rw [hd] at hfar
    change m.childOf .left f.elem = _ at hfar
    rw [hfar]
    exact congrArg some (if_neg hptr)

def adopted (p up : Ptr) (m : Mem) : Mem :=
  if p = m.sentinel then m else m.putParent p up

def hung (z : List (Frame Ptr)) (q : Ptr) (m : Mem) : Mem :=
  match z with
  | [] => { m with root := q }
  | f :: _ => m.putChild f.side f.elem q

theorem adopt_eq (h : m.live p = true) : adopt p up m = some (adopted p up m) := by
  rw [adopt, adopted]
  split
  · rfl
  · exact write_live m _ h

/-- The pointer `p` is in the place `z` and nowhere else near it. -/
structure InPlace (m : Mem) (z : List (Frame Ptr)) (p : Ptr) : Prop where
  root : p = m.root ↔ z = []
  live : ∀ f ∈ z.head?, m.live f.elem = true
  near : ∀ f ∈ z.head?, m.child f.side f.elem = p
  far : ∀ f ∈ z.head?, m.child f.side.other f.elem ≠ p

theorem InPlace.congr (h : InPlace m z p) (hroot : m'.root = m.root)
    (hlive : m'.live = m.live) (hchild : ∀ e, ∀ f ∈ z.head?, m'.child e f.elem = m.child e f.elem) :
    InPlace m' z p where
  root := hroot ▸ h.root
  live f hf := hlive ▸ h.live f hf
  near f hf := (hchild _ f hf).trans (h.near f hf)
  far f hf := (hchild _ f hf).symm ▸ h.far f hf

theorem mem_surrounding_of_head (h : f ∈ z.head?) : f.elem ∈ surrounding z := by
  cases z with
  | nil => cases h
  | cons g z =>
    cases h
    exact mem_surrounding_cons.mpr (.inl rfl)

theorem Holds.inPlace (h : Holds m (plug z t)) (hne : t ≠ leaf ∨ ∀ f ∈ z.head?, f.sibling ≠ leaf) :
    InPlace m z (ptr m t) := by
  refine ⟨h.root_eq_iff, ?_, ?_, ?_⟩ <;> intro f hf
  · exact (h.mem_plug (.inr (mem_surrounding_of_head hf))).1
  · cases z with
    | nil => cases hf
    | cons g z =>
      cases hf
      obtain ⟨up, hlinked⟩ := h.linked
      exact (linked_plug.mp hlinked).1.1.1
  · cases z with
    | nil => cases hf
    | cons g z =>
      cases hf
      obtain ⟨up, hlinked⟩ := h.linked
      rw [(linked_plug.mp hlinked).1.1.2.1]
      exact (h.ptr_ne_sibling (hne.imp_right fun h => h f rfl)).symm

theorem relink_eq (hlive : m.live f.elem = true)
    (hnear : m.child f.side f.elem = p) (hfar : m.child f.side.other f.elem ≠ p) :
    relink d p f.elem q m = some (m.putChild f.side f.elem q) := by
  refine and_then (childOf_eq m hlive rfl) ?_
  by_cases hside : f.side = d
  · subst hside
    rw [if_pos hnear.symm]
    exact write_live m _ hlive
  · obtain rfl : d = f.side.other := Side.eq_other_of_ne (Ne.symm hside)
    rw [if_neg hfar.symm, Side.other_other]
    exact write_live m _ hlive

theorem InPlace.replace (h : InPlace m z p) : replace d p (above up z) q m = some (hung z q m) := by
  cases z with
  | nil => exact if_pos (h.root.mpr rfl)
  | cons f z =>
    rw [Tree.replace, if_neg (mt h.root.mp (List.cons_ne_nil f z))]
    exact relink_eq (h.live f rfl) (h.near f rfl) (h.far f rfl)

section Fields
variable (p q up : Ptr) (z : List (Frame Ptr)) (m : Mem)

@[simp] theorem adopted_live : (adopted p up m).live = m.live := by
  rw [adopted]
  split <;> rfl

@[simp] theorem adopted_key : (adopted p up m).key = m.key := by
  rw [adopted]
  split <;> rfl

@[simp] theorem adopted_child : (adopted p up m).child = m.child := by
  rw [adopted]
  split <;> rfl

@[simp] theorem adopted_red : (adopted p up m).red = m.red := by
  rw [adopted]
  split <;> rfl

@[simp] theorem adopted_root : (adopted p up m).root = m.root := by
  rw [adopted]
  split <;> rfl

@[simp] theorem adopted_sentinel : (adopted p up m).sentinel = m.sentinel := by
  rw [adopted]
  split <;> rfl

theorem adopted_parent (a : Ptr) :
    (adopted p up m).parent a = if a = p ∧ a ≠ m.sentinel then up else m.parent a := by
  rw [adopted]
  split
  · next hs => rw [if_neg fun h => h.2 (h.1.trans hs)]
  · next hs => exact if_congr ⟨fun h => ⟨h, h.symm ▸ hs⟩, And.left⟩ rfl rfl

@[simp] theorem hung_live : (hung z q m).live = m.live := by
  cases z <;> rfl

@[simp] theorem hung_key : (hung z q m).key = m.key := by
  cases z <;> rfl

@[simp] theorem hung_parent : (hung z q m).parent = m.parent := by
  cases z <;> rfl

@[simp] theorem hung_red : (hung z q m).red = m.red := by
  cases z <;> rfl

@[simp] theorem hung_sentinel : (hung z q m).sentinel = m.sentinel := by
  cases z <;> rfl

theorem hung_root : (hung z q m).root = if z = [] then q else m.root := by
  cases z <;> rfl

theorem hung_child (e : Side) (a : Ptr) : (hung z q m).child e a =
    if z.head?.any fun f => e = f.side ∧ a = f.elem then q else m.child e a := by
  cases z with
  | nil => rfl
  | cons f z => simp [hung, Mem.putChild]

end Fields

def rotated (d : Side) (x y inner up : Ptr) (z : List (Frame Ptr)) (m : Mem) : Mem :=
  ((hung z y ((adopted inner x (m.putChild d.other x inner)).putParent y (above up z))).putChild
    d y x).putParent x y

theorem rotated_parent {inner : Ptr} (a : Ptr) : (rotated d x y inner up z m).parent a =
    if a = x then y else if a = y then above up z
      else if a = inner ∧ a ≠ m.sentinel then x else m.parent a := by
  change (if a = x then y else (hung z y ((adopted inner x (m.putChild d.other x inner)).putParent y
    (above up z))).parent a) = _
  rw [hung_parent]
  change (if a = x then y else if a = y then above up z
    else (adopted inner x (m.putChild d.other x inner)).parent a) = _
  rw [adopted_parent]
  rfl

theorem rotated_child {inner : Ptr} (e : Side) (a : Ptr) :
    (rotated d x y inner up z m).child e a = if e = d ∧ a = y then x
      else if z.head?.any fun f => e = f.side ∧ a = f.elem then y
      else if e = d.other ∧ a = x then inner else m.child e a := by
  change (if e = d ∧ a = y then x else (hung z y ((adopted inner x
    (m.putChild d.other x inner)).putParent y (above up z))).child e a) = _
  rw [hung_child]
  change (if e = d ∧ a = y then x else if _ then y
    else (adopted inner x (m.putChild d.other x inner)).child e a) = _
  rw [adopted_child]
  rfl

section Rotation
variable {up inner : Ptr} (hx : m.live x = true) (hy : m.live y = true)
  (hb : m.live inner = true) (hxy : m.child d.other x = y) (hyb : m.child d y = inner)
  (hbx : x ≠ inner) (hup : m.parent x = above up z) (hplace : InPlace m z x)
  (htop : ∀ f ∈ z.head?, f.elem ≠ x)
include hx hy hb hxy hyb hbx hup hplace htop

theorem rotate_eq : rotate d x m = some (rotated d x y inner up z m) := by
  have hplace' : InPlace ((adopted inner x (m.putChild d.other x inner)).putParent y (above up z)) z x := by
    refine hplace.congr (adopted_root ..) (adopted_live ..) fun e f hf => ?_
    change (adopted inner x (m.putChild d.other x inner)).child e f.elem = _
    rw [adopted_child]
    exact if_neg fun h => htop f hf h.2
  refine and_then (childOf_eq m hx hxy) (and_then (childOf_eq m hy hyb)
    (and_then (write_live m _ hx) (and_then (adopt_eq hb) (and_then (parentOf_eq _ ?_ ?_)
      (and_then (write_live _ _ ?_) (and_then hplace'.replace (and_then (write_live _ _ ?_)
        (write_live _ _ ?_))))))))
  · rw [adopted_live]
    exact hx
  · rw [adopted_parent, if_neg fun h => hbx h.1]
    exact hup
  · rw [adopted_live]
    exact hy
  · rw [hung_live]
    change (adopted inner x (m.putChild d.other x inner)).live y = true
    rw [adopted_live]
    exact hy
  · change (hung z y ((adopted inner x (m.putChild d.other x inner)).putParent y
      (above up z))).live x = true
    rw [hung_live]
    change (adopted inner x (m.putChild d.other x inner)).live x = true
    rw [adopted_live]
    exact hx

theorem rotate_fields :
    ∃ m', rotate d x m = some m' ∧ m'.live = m.live ∧ m'.key = m.key ∧ m'.sentinel = m.sentinel ∧
      m'.red = m.red ∧ m'.root = (if z = [] then y else m.root) ∧
      (∀ a, m'.parent a = if a = x then y else if a = y then above up z
        else if a = inner ∧ a ≠ m.sentinel then x else m.parent a) ∧
      ∀ e a, m'.child e a = if e = d ∧ a = y then x
        else if z.head?.any fun f => e = f.side ∧ a = f.elem then y
        else if e = d.other ∧ a = x then inner else m.child e a := by
  refine ⟨_, rotate_eq hx hy hb hxy hyb hbx hup hplace htop, ?_, ?_, ?_, ?_, ?_, rotated_parent,
    rotated_child⟩ <;> simp [rotated, Mem.putParent, Mem.putChild, hung_root]

end Rotation

theorem inorder_fork_perm : (fork d c a x b).inorder.Perm (x :: (a.inorder ++ b.inorder)) := by
  cases d with
  | left => exact List.perm_middle
  | right => exact List.perm_middle.trans (List.perm_append_comm.cons x)

theorem any_head_of_ne {e : Side} (h : ∀ f ∈ z.head?, f.elem ≠ p) :
    (z.head?.any fun f => decide (e = f.side ∧ p = f.elem)) = false := by
  rw [Option.any_eq_false]
  intro f hf
  simpa using fun _ heq => h f hf heq.symm

theorem any_head_surrounding {e : Side} (hp : p ∉ surrounding z) :
    (z.head?.any fun f => decide (e = f.side ∧ p = f.elem)) = false :=
  any_head_of_ne fun _ hf heq => hp (heq ▸ mem_surrounding_of_head hf)

theorem Holds.root_rehung (h : Holds m (plug z t)) (hs : m'.sentinel = m.sentinel)
    (hroot : m'.root = if z = [] then ptr m' t' else m.root) : m'.root = ptr m' (plug z t') := by
  rw [hroot]
  cases z with
  | nil => rfl
  | cons f z =>
    rw [if_neg (List.cons_ne_nil f z), ptr_congr hs]
    exact h.root.trans (ptr_plug_cons f _ _)

theorem Around.rehang (ha : Around m up z p)
    (hs : m'.sentinel = m.sentinel) (hnodup : (surrounding z).Nodup)
    (hchild : ∀ e, ∀ a ∈ surrounding z, m'.child e a =
      if z.head?.any fun f => e = f.side ∧ a = f.elem then q else m.child e a)
    (hparent : ∀ a ∈ surrounding z, m'.parent a = m.parent a)
    (hred : ∀ a ∈ surrounding z, m'.red a = m.red a) : Around m' up z q := by
  cases z with
  | nil => trivial
  | cons f z =>
    have hf : f.elem ∈ surrounding (f :: z) := mem_surrounding_cons.mpr (.inl rfl)
    refine ha.refill hs hnodup ?_ ?_ (hparent _ hf) (hred _ hf) fun p hp hne =>
      ⟨fun e => ?_, hparent p hp, hred p hp⟩
    · rw [hchild _ _ hf]
      simp
    · rw [hchild _ _ hf]
      simp [Side.other_ne]
    · rw [hchild _ _ hp]
      simp [hne]

theorem Holds.rotate_nodup (h : Holds m (plug z (fork d c a x (fork d c' b y e)))) :
    (x :: y :: (a.inorder ++ (b.inorder ++ (e.inorder ++ surrounding z)))).Nodup := by
  refine (List.Perm.nodup_iff ?_).mp h.nodup_plug
  have hinner : (fork d c' b y e).inorder.Perm (y :: (b.inorder ++ e.inorder)) := inorder_fork_perm
  have houter : (fork d c a x (fork d c' b y e)).inorder.Perm
      (x :: y :: (a.inorder ++ (b.inorder ++ e.inorder))) := by
    refine inorder_fork_perm.trans (.cons x ?_)
    exact (hinner.append_left _).trans List.perm_middle
  refine (houter.append_right _).trans ?_
  simp

theorem Holds.rotate (h : Holds m (plug z (fork d c a x (fork d c' b y e)))) :
    ∃ m', rotate d x m = some m' ∧ Keeps m m' ∧
      Holds m' (plug z (fork d c' (fork d c a x b) y e)) := by
  obtain ⟨up, hlinked⟩ := h.linked
  obtain ⟨haround, hplace⟩ := linked_plug.mp hlinked
  rw [ptr_fork] at haround
  obtain ⟨⟨hxa, hxy, hxup, hxc⟩, hla, hly⟩ := linked_fork.mp hplace
  rw [ptr_fork] at hxy
  obtain ⟨⟨hyb, hye, hyup, hyc⟩, hlb, hle⟩ := linked_fork.mp hly
  have hnodup := h.rotate_nodup
  simp only [List.nodup_cons, List.nodup_append, List.mem_cons, List.mem_append, not_or] at hnodup
  obtain ⟨⟨hxney, hxa', hxb', hxe', hxz⟩, ⟨hya', hyb', hye', hyz⟩, -, ⟨hbnodup, ⟨-, hznodup, hez⟩, hb'⟩,
    ha'⟩ := hnodup
  have hmem : ∀ p, p = x ∨ p = y ∨ p ∈ a.inorder ∨ p ∈ b.inorder ∨ p ∈ e.inorder ∨ p ∈ surrounding z →
      m.live p = true ∧ p ≠ m.sentinel := by
    intro p hp
    refine h.mem_plug ?_
    rw [mem_inorder_fork, mem_inorder_fork]
    tauto
  obtain ⟨hlivex, hsx⟩ := hmem x (.inl rfl)
  obtain ⟨hlivey, hsy⟩ := hmem y (.inr (.inl rfl))
  have hmiddle : Holds m (plug (⟨d, c', y, e⟩ :: ⟨d.other, c, x, a⟩ :: z) b) := h.far
  have hin := h.inPlace (.inl fork_ne_leaf)
  rw [ptr_fork] at hin
  obtain ⟨m', hm', hlive, hkey, hs, hred, hrt, hpar, hch⟩ :=
    rotate_fields hlivex hlivey hmiddle.ptr_live hxy hyb (ne_ptr hsx hxb') hxup hin
      fun f hf heq => hxz (heq ▸ mem_surrounding_of_head hf)
  -- what is written of the other nodes
  have hchild : ∀ e p, p ≠ x → p ≠ y → p ∉ surrounding z → m'.child e p = m.child e p := by
    intro e p hpx hpy hpz
    rw [hch, if_neg fun h => hpy h.2, any_head_surrounding hpz, if_neg Bool.false_ne_true,
      if_neg fun h => hpx h.2]
  have hparent : ∀ p, p ≠ x → p ≠ y → p ≠ m.sentinel →
      m'.parent p = if p = ptr m b then x else m.parent p := by
    intro p hpx hpy hps
    rw [hpar, if_neg hpx, if_neg hpy]
    exact if_congr (and_iff_left hps) rfl rfl
  -- subtrees that hang on the same node as before
  have hsame : ∀ p, p ∈ a.inorder ∨ p ∈ e.inorder → SameNode m m' p := by
    intro p hp
    have hout : p ∉ surrounding z ∧ p ∉ b.inorder ∧ p ≠ x ∧ p ≠ y := by
      rcases hp with hp | hp
      · refine ⟨fun h => ha' p hp p (.inr (.inr h)) rfl, fun h => ha' p hp p (.inl h) rfl, ?_, ?_⟩ <;>
          rintro rfl
        · exact hxa' hp
        · exact hya' hp
      · refine ⟨fun h => hez p hp p h rfl, fun h => hb' p h p (.inl hp) rfl, ?_, ?_⟩ <;> rintro rfl
        · exact hxe' hp
        · exact hye' hp
    obtain ⟨hpz, hpb, hpx, hpy⟩ := hout
    have hps := (hmem p (by tauto)).2
    exact ⟨fun e => hchild e p hpx hpy hpz,
      (hparent p hpx hpy hps).trans (if_neg (ne_ptr hps hpb)), congrFun hred p⟩
  have hlb' : Linked m' x b := by
    have hout : ∀ p ∈ b.inorder, p ≠ x ∧ p ≠ y :=
      fun p hp => ⟨fun heq => hxb' (heq ▸ hp), fun heq => hyb' (heq ▸ hp)⟩
    refine hlb.moved hs hbnodup (fun e p hp => ?_) (fun p _ => congrFun hred p) fun p hp => ?_
    · exact hchild e p (hout p hp).1 (hout p hp).2 fun hz => hb' p hp p (.inr hz) rfl
    · exact hparent p (hout p hp).1 (hout p hp).2 (hmem p (by tauto)).2
  have haround' : Around m' up z y := by
    have hout : ∀ p ∈ surrounding z, p ≠ x ∧ p ≠ y :=
      fun p hp => ⟨fun heq => hxz (heq ▸ hp), fun heq => hyz (heq ▸ hp)⟩
    refine haround.rehang hs hznodup (fun e p hp => ?_) (fun p hp => ?_) fun p _ => congrFun hred p
    · rw [hch, if_neg fun h => (hout p hp).2 h.2]
      exact if_congr Iff.rfl rfl (if_neg fun h => (hout p hp).1 h.2)
    · have hps := (hmem p (by tauto)).2
      rw [hparent p (hout p hp).1 (hout p hp).2 hps]
      exact if_neg (ne_ptr hps fun hb => hb' p hb p (.inr hp) rfl)
  have horder : (plug z (fork d c' (fork d c a x b) y e)).inorder =
      (plug z (fork d c a x (fork d c' b y e))).inorder :=
    inorder_plug_congr (RedBlack.Tree.inorder_rotate d c c' c' c a b e x y).symm
  have hother := Side.other_ne d
  refine ⟨m', hm', ⟨hlive, hkey, hs, ?_⟩, h.relinked (h.root_rehung hs (by rw [hrt, ptr_fork]))
    ⟨up, linked_plug.mpr ⟨by rwa [ptr_fork], ?_⟩⟩ hlive hs ?_ (horder ▸ h.nodup) fun p hp => horder ▸ hp⟩
  · rw [hpar, if_neg hsx.symm, if_neg hsy.symm, if_neg fun h => h.2 rfl]
  · refine linked_fork.mpr ⟨⟨?_, ?_, ?_, ?_⟩, linked_fork.mpr ⟨⟨?_, ?_, ?_, ?_⟩,
      hla.congr hs fun p hp => hsame p (.inl hp), hlb'⟩, hle.congr hs fun p hp => hsame p (.inr hp)⟩
    · rw [hch, if_pos ⟨rfl, rfl⟩, ptr_fork]
    · rw [hch, if_neg fun h => hother h.1, any_head_surrounding hyz, if_neg Bool.false_ne_true,
        if_neg fun h => hxney h.2.symm, hye, ptr_congr hs]
    · rw [hpar, if_neg (Ne.symm hxney), if_pos rfl]
    · rw [hred, hyc]
    · rw [hch, if_neg fun h => hxney h.2, any_head_surrounding hxz, if_neg Bool.false_ne_true,
        if_neg fun h => hother h.1.symm, hxa, ptr_congr hs]
    · rw [hch, if_neg fun h => hxney h.2, any_head_surrounding hxz, if_neg Bool.false_ne_true,
        if_pos ⟨rfl, rfl⟩, ptr_congr hs]
    · rw [hpar, if_pos rfl]
    · rw [hred, hxc]
  · rw [hred]
    exact h.sentinelBlack

end Place

end Aware.Tree
