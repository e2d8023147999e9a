import Mathlib.Data.List.Basic
import Mathlib.Tactic.Common

/-!
Red-black trees with a place in them: what surrounds the place is a list of frames, the innermost
first. Nodes are written by sides, so that every statement stands for its mirror image too.
-/
namespace Aware.RedBlack

inductive Side where
  | left
  | right
  deriving DecidableEq, Repr

def Side.other : Side → Side
  | .left => .right
  | .right => .left

@[simp] theorem Side.other_other (d : Side) : d.other.other = d := by
  cases d <;> rfl

theorem Side.other_ne (d : Side) : d.other ≠ d := by
  cases d <;> decide

theorem Side.eq_other_of_ne {d e : Side} (h : d ≠ e) : d = e.other := by
  cases d <;> cases e <;> first | rfl | exact absurd rfl h

inductive Color where
  | red
  | black
  deriving DecidableEq, Repr

inductive Tree (α : Type*) where
  | leaf
  | node (c : Color) (l : Tree α) (x : α) (r : Tree α)

variable {α : Type*}

def Tree.fork (d : Side) (c : Color) (a : Tree α) (x : α) (b : Tree α) : Tree α :=
  match d with
  | .left => .node c a x b
  | .right => .node c b x a

/-- A parent of the place, which is on the side `side` of it. -/
structure Frame (α : Type*) where
  side : Side
  color : Color
  elem : α
  sibling : Tree α

def plug : List (Frame α) → Tree α → Tree α
  | [], t => t
  | f :: z, t => plug z (.fork f.side f.color t f.elem f.sibling)

namespace Tree

def inorder : Tree α → List α
  | leaf => []
  | node _ l x r => l.inorder ++ x :: r.inorder

def isRed : Tree α → Bool
  | node .red _ _ _ => true
  | _ => false

def paint (c : Color) : Tree α → Tree α
  | leaf => leaf
  | node _ l x r => node c l x r

/-- No red node has a red child, and `n` black nodes are on every way down. -/
def Balanced : Tree α → ℕ → Prop
  | leaf, n => n = 0
  | node .red l _ r, n => l.Balanced n ∧ r.Balanced n ∧ l.isRed = false ∧ r.isRed = false
  | node .black l _ r, n => ∃ m, n = m + 1 ∧ l.Balanced m ∧ r.Balanced m

def Valid (t : Tree α) : Prop :=
  t.isRed = false ∧ ∃ n, t.Balanced n

variable {t a b : Tree α} {d : Side} {c : Color} {x : α} {n : ℕ}

theorem eq_fork (d : Side) (h : t ≠ leaf) : ∃ c a x b, t = fork d c a x b := by
  cases t with
  | leaf => exact absurd rfl h
  | node c l x r =>
    cases d with
    | left => exact ⟨c, l, x, r, rfl⟩
    | right => exact ⟨c, r, x, l, rfl⟩

theorem fork_other (d : Side) (c : Color) (a : Tree α) (x : α) (b : Tree α) :
    fork d.other c a x b = fork d c b x a := by
  cases d <;> rfl

@[simp] theorem fork_ne_leaf :
    fork d c a x b ≠ leaf := by
  intro h
  cases d <;> cases h

@[simp] theorem paint_fork (c' : Color) (d : Side) (c : Color) (a : Tree α) (x : α) (b : Tree α) :
    (fork d c a x b).paint c' = fork d c' a x b := by
  cases d <;> rfl

@[simp] theorem isRed_fork (d : Side) (c : Color) (a : Tree α) (x : α) (b : Tree α) :
    (fork d c a x b).isRed = decide (c = .red) := by
  cases d <;> cases c <;> rfl

@[simp] theorem inorder_paint (c : Color) (t : Tree α) : (t.paint c).inorder = t.inorder := by
  cases t <;> rfl

theorem mem_inorder_fork {y : α} :
    y ∈ (fork d c a x b).inorder ↔ y = x ∨ y ∈ a.inorder ∨ y ∈ b.inorder := by
  cases d <;> simp only [fork, inorder, List.mem_append, List.mem_cons] <;> tauto

theorem inorder_fork_congr {c' : Color} {a' b' : Tree α}
    (ha : a.inorder = a'.inorder) (hb : b.inorder = b'.inorder) :
    (fork d c a x b).inorder = (fork d c' a' x b').inorder := by
  cases d <;> simp only [fork, inorder, ha, hb]

theorem inorder_rotate (d : Side) (c₁ c₂ c₃ c₄ : Color) (a b e : Tree α) (x y : α) :
    (fork d c₁ a x (fork d c₂ b y e)).inorder = (fork d c₃ (fork d c₄ a x b) y e).inorder := by
  cases d <;> simp [fork, inorder]

theorem inorder_rotate_twice (d : Side) (c₁ c₂ c₃ c₄ c₅ c₆ : Color) (s a b v : Tree α) (p x q : α) :
    (fork d c₁ (fork d c₂ s p a) x (fork d c₃ b q v)).inorder =
      (fork d c₄ (fork d c₅ s p (fork d c₆ a x b)) q v).inorder := by
  cases d <;> simp [fork, inorder]

theorem inorder_rotate_near (d : Side) (c₁ c₂ c₃ c₄ c₅ c₆ : Color) (t a b v : Tree α) (p x q : α) :
    (fork d c₁ (fork d c₂ t p a) x (fork d c₃ b q v)).inorder =
      (fork d c₄ t p (fork d c₅ (fork d c₆ a x b) q v)).inorder := by
  cases d <;> simp [fork, inorder]

@[simp] theorem balanced_red :
    (fork d .red a x b).Balanced n ↔
      (a.Balanced n ∧ a.isRed = false) ∧ b.Balanced n ∧ b.isRed = false := by
  cases d <;> simp only [fork, Balanced] <;> tauto

@[simp] theorem balanced_black :
    (fork d .black a x b).Balanced n ↔ ∃ m, n = m + 1 ∧ a.Balanced m ∧ b.Balanced m := by
  cases d <;> simp only [fork, Balanced]
  exact exists_congr fun m => and_congr_right fun _ => and_comm

theorem Balanced.paint_black (h : t.Balanced n) (hred : t.isRed = true) :
    (t.paint .black).Balanced (n + 1) := by
  cases t with
  | leaf => cases hred
  | node c l x r =>
    cases c with
    | red => exact ⟨n, rfl, h.1, h.2.1⟩
    | black => cases hred

theorem paint_black_of_black (h : t.isRed = false) : t.paint .black = t := by
  cases t with
  | leaf => rfl
  | node c l x r =>
    cases c with
    | red => cases h
    | black => rfl

theorem isRed_paint_black (t : Tree α) : (t.paint .black).isRed = false := by
  cases t <;> rfl

theorem Valid.paint_black (h : t.Valid) : (t.paint .black).Valid := by
  rw [paint_black_of_black h.1]
  exact h

theorem red_fork (d : Side) (hred : t.isRed = true) : ∃ a x b, t = fork d .red a x b := by
  have hne : t ≠ leaf := by
    rintro rfl
    cases hred
  obtain ⟨c, a, x, b, rfl⟩ := eq_fork d hne
  cases c with
  | red => exact ⟨a, x, b, rfl⟩
  | black => simp at hred

end Tree

open Aware.RedBlack.Tree

def TopBlack (z : List (Frame α)) : Prop :=
  z.head?.map Frame.color = some .black

/-- The surroundings are balanced around a subtree of black height `n`, with a black root. -/
def Hole : List (Frame α) → ℕ → Prop
  | [], _ => True
  | f :: z, n =>
    f.sibling.Balanced n ∧
      match f.color with
      | .red => f.sibling.isRed = false ∧ TopBlack z ∧ Hole z n
      | .black => Hole z (n + 1)

def before : List (Frame α) → List α
  | [] => []
  | f :: z =>
    before z ++
      match f.side with
      | .left => []
      | .right => f.sibling.inorder ++ [f.elem]

def after : List (Frame α) → List α
  | [] => []
  | f :: z =>
    (match f.side with
      | .left => f.elem :: f.sibling.inorder
      | .right => []) ++ after z

theorem inorder_plug (z : List (Frame α)) (t : Tree α) :
    (plug z t).inorder = before z ++ t.inorder ++ after z := by
  induction z generalizing t with
  | nil => simp [plug, before, after]
  | cons f z ih =>
    obtain ⟨d, c, x, s⟩ := f
    rw [plug, ih]
    cases d <;> simp [fork, inorder, before, after]

theorem plug_append (z z' : List (Frame α)) (t : Tree α) : plug (z ++ z') t = plug z' (plug z t) := by
  induction z generalizing t with
  | nil => rfl
  | cons f z ih => exact ih _

section Hole
variable {z : List (Frame α)} {f : Frame α} {t : Tree α} {n : ℕ}

theorem hole_red (hc : f.color = .red) :
    Hole (f :: z) n ↔ (f.sibling.Balanced n ∧ f.sibling.isRed = false) ∧ TopBlack z ∧ Hole z n := by
  rw [Hole, hc]
  tauto

theorem hole_black (hc : f.color = .black) :
    Hole (f :: z) n ↔ f.sibling.Balanced n ∧ Hole z (n + 1) := by
  rw [Hole, hc]

theorem Hole.valid (h : Hole z n) (ht : t.Balanced n)
    (hred : t.isRed = true → TopBlack z) : (plug z t).Valid := by
  induction z generalizing t n with
  | nil =>
    refine ⟨?_, n, ht⟩
    cases hr : t.isRed with
    | false => exact hr
    | true => cases hred hr
  | cons f z ih =>
    obtain ⟨d, c, x, s⟩ := f
    cases c with
    | red =>
      obtain ⟨⟨hs, hsb⟩, htop, hz⟩ := (hole_red rfl).mp h
      have htb : t.isRed = false := by
        cases hr : t.isRed with
        | false => rfl
        | true => cases hred hr
      exact ih hz (balanced_red.mpr ⟨⟨ht, htb⟩, hs, hsb⟩) fun _ => htop
    | black =>
      obtain ⟨hs, hz⟩ := (hole_black rfl).mp h
      refine ih hz (balanced_black.mpr ⟨n, rfl, ht, hs⟩) fun hr => ?_
      simp at hr

theorem Tree.Valid.hole (h : (plug z t).Valid) :
    ∃ n, t.Balanced n ∧ Hole z n ∧ (t.isRed = true → TopBlack z) := by
  induction z generalizing t with
  | nil =>
    obtain ⟨hblack, n, hn⟩ := h
    refine ⟨n, hn, trivial, fun hred => ?_⟩
    rw [plug] at hblack
    rw [hblack] at hred
    cases hred
  | cons f z ih =>
    obtain ⟨n, hn, hz, htop⟩ := ih h
    obtain ⟨d, c, x, s⟩ := f
    cases c with
    | red =>
      obtain ⟨⟨ht, htb⟩, hs, hsb⟩ := balanced_red.mp hn
      refine ⟨n, ht, (hole_red rfl).mpr ⟨⟨hs, hsb⟩, htop (by simp), hz⟩, fun hred => ?_⟩
      rw [htb] at hred
      cases hred
    | black =>
      obtain ⟨m, rfl, ht, hs⟩ := balanced_black.mp hn
      exact ⟨m, ht, (hole_black rfl).mpr ⟨hs, hz⟩, fun _ => rfl⟩

end Hole

section Insertion
variable {z : List (Frame α)} {f g : Frame α} {t : Tree α} {n : ℕ}

theorem TopBlack.color (h : TopBlack (f :: z)) : f.color = .black :=
  Option.some.inj h

theorem Hole.recolor (h : Hole (f :: g :: z) n) (ht : t.Balanced n) (hf : f.color = .red)
    (hg : g.sibling.isRed = true) :
    (fork g.side .red (fork f.side .black t f.elem f.sibling) g.elem
      (g.sibling.paint .black)).Balanced (n + 1) ∧ Hole z (n + 1) := by
  obtain ⟨⟨hs, -⟩, htop, hgz⟩ := (hole_red hf).mp h
  obtain ⟨hu, hz⟩ := (hole_black htop.color).mp hgz
  refine ⟨balanced_red.mpr ⟨⟨balanced_black.mpr ⟨n, rfl, ht, hs⟩, by simp⟩, hu.paint_black hg, ?_⟩, hz⟩
  cases hs : g.sibling <;> rfl

theorem Hole.turn_outer (h : Hole (f :: g :: z) n) (ht : t.Balanced n) (hf : f.color = .red)
    (hg : g.sibling.isRed = false) (d : Side) :
    (plug z (fork d .black t f.elem (fork d .red f.sibling g.elem g.sibling))).Valid := by
  obtain ⟨⟨hs, hsb⟩, htop, hgz⟩ := (hole_red hf).mp h
  obtain ⟨hu, hz⟩ := (hole_black htop.color).mp hgz
  refine hz.valid (balanced_black.mpr ⟨n, rfl, ht, balanced_red.mpr ⟨⟨hs, hsb⟩, hu, hg⟩⟩) ?_
  intro hred
  simp at hred

theorem Hole.turn_inner {a b : Tree α} {x : α} {d : Side} (h : Hole (f :: g :: z) n)
    (ht : (fork d .red a x b).Balanced n) (hf : f.color = .red) (hg : g.sibling.isRed = false) :
    (plug z (fork d .black (fork d .red f.sibling f.elem a) x
      (fork d .red b g.elem g.sibling))).Valid := by
  obtain ⟨⟨hs, hsb⟩, htop, hgz⟩ := (hole_red hf).mp h
  obtain ⟨hu, hz⟩ := (hole_black htop.color).mp hgz
  obtain ⟨ha, hb, hbb⟩ := balanced_red.mp ht
  refine hz.valid (balanced_black.mpr ⟨n, rfl, balanced_red.mpr ⟨⟨hs, hsb⟩, ha⟩,
    balanced_red.mpr ⟨⟨hb, hbb⟩, hu, hg⟩⟩) ?_
  intro hred
  simp at hred

end Insertion

/-- The subtree is one black node short of its place. A red one makes up for it by its colour. -/
def Lacks (z : List (Frame α)) (t : Tree α) : Prop :=
  ∃ n, Hole z (n + 1) ∧
    (t.isRed = false → t.Balanced n) ∧ (t.isRed = true → (t.paint .black).Balanced (n + 1))

section Deletion
variable {z : List (Frame α)} {f : Frame α} {t a b : Tree α} {y : α} {d : Side}

theorem Lacks.of_red (h : Lacks z t) (hred : t.isRed = true) : (plug z (t.paint .black)).Valid := by
  obtain ⟨n, hz, -, ht⟩ := h
  refine hz.valid (ht hred) fun h => ?_
  rw [isRed_paint_black] at h
  cases h

theorem Lacks.of_root (h : Lacks [] t) : (t.paint .black).Valid := by
  obtain ⟨n, -, hblack, hred⟩ := h
  cases hr : t.isRed with
  | false =>
    rw [paint_black_of_black hr]
    exact ⟨hr, n, hblack hr⟩
  | true => exact ⟨isRed_paint_black t, n + 1, hred hr⟩

theorem Tree.Valid.lacks (h : t.Valid) : Lacks [] t := by
  obtain ⟨hblack, n, hn⟩ := h
  refine ⟨n, trivial, fun _ => hn, fun hred => ?_⟩
  rw [hblack] at hred
  cases hred

theorem Lacks.sibling_ne_leaf (h : Lacks (f :: z) t) : f.sibling ≠ leaf := by
  obtain ⟨n, hz, -⟩ := h
  intro hleaf
  have hs := hz.1
  rw [hleaf] at hs
  cases hs

theorem Lacks.sibling_red (h : Lacks (f :: z) t) (hs : f.sibling = fork d .red a y b) :
    f.color = .black ∧ a.isRed = false ∧
      Lacks (⟨d, .red, f.elem, a⟩ :: ⟨d, .black, y, b⟩ :: z) t := by
  obtain ⟨n, hz, ht⟩ := h
  have hc : f.color = .black := by
    cases hc : f.color with
    | black => rfl
    | red =>
      obtain ⟨⟨-, hsb⟩, -⟩ := (hole_red hc).mp hz
      rw [hs] at hsb
      simp at hsb
  obtain ⟨hsib, hz⟩ := (hole_black hc).mp hz
  rw [hs] at hsib
  obtain ⟨⟨ha, hab⟩, hb, -⟩ := balanced_red.mp hsib
  refine ⟨hc, hab, n, ?_, ht⟩
  exact (hole_red rfl).mpr ⟨⟨ha, hab⟩, rfl, (hole_black rfl).mpr ⟨hb, hz⟩⟩

theorem Lacks.sibling_black (h : Lacks (f :: z) t) (hblack : t.isRed = false)
    (hs : f.sibling = fork d .black a y b) (ha : a.isRed = false) (hb : b.isRed = false) :
    Lacks z (fork f.side f.color t f.elem (fork d .red a y b)) := by
  obtain ⟨n, hz, ht, -⟩ := h
  have hsib := hz.1
  rw [hs] at hsib
  obtain ⟨m, hm, hab, hbb⟩ := balanced_black.mp hsib
  cases hm
  have hred : (fork d .red a y b).Balanced n := balanced_red.mpr ⟨⟨hab, ha⟩, hbb, hb⟩
  have hwhole : (fork f.side .black t f.elem (fork d .red a y b)).Balanced (n + 1) :=
    balanced_black.mpr ⟨n, rfl, ht hblack, hred⟩
  cases hc : f.color with
  | red =>
    obtain ⟨-, -, hz⟩ := (hole_red hc).mp hz
    refine ⟨n, hz, fun h => ?_, fun _ => ?_⟩
    · simp at h
    · rw [paint_fork]
      exact hwhole
  | black =>
    obtain ⟨-, hz⟩ := (hole_black hc).mp hz
    refine ⟨n + 1, hz, fun _ => hwhole, fun h => ?_⟩
    simp at h

theorem Lacks.far_red (h : Lacks (f :: z) t) (hblack : t.isRed = false)
    (hs : f.sibling = fork d .black a y b) (hb : b.isRed = true) :
    (plug z (fork d f.color (fork d .black t f.elem a) y (b.paint .black))).Valid := by
  obtain ⟨n, hz, ht, -⟩ := h
  have hsib := hz.1
  rw [hs] at hsib
  obtain ⟨m, hm, hab, hbb⟩ := balanced_black.mp hsib
  cases hm
  have hnear : (fork d .black t f.elem a).Balanced (n + 1) :=
    balanced_black.mpr ⟨n, rfl, ht hblack, hab⟩
  have hfar := hbb.paint_black hb
  cases hc : f.color with
  | red =>
    obtain ⟨-, htop, hz⟩ := (hole_red hc).mp hz
    exact hz.valid (balanced_red.mpr ⟨⟨hnear, by simp⟩, hfar, isRed_paint_black b⟩) fun _ => htop
  | black =>
    obtain ⟨-, hz⟩ := (hole_black hc).mp hz
    refine hz.valid (balanced_black.mpr ⟨n + 1, rfl, hnear, hfar⟩) fun h => ?_
    simp at h

variable {x : α}

theorem Lacks.near_red {a₁ a₂ : Tree α} (h : Lacks (f :: z) t) (hblack : t.isRed = false)
    (hs : f.sibling = fork d .black (fork d .red a₁ x a₂) y b) (hb : b.isRed = false) :
    (plug z (fork d f.color (fork d .black t f.elem a₁) x (fork d .black a₂ y b))).Valid := by
  have hturned : Lacks (⟨f.side, f.color, f.elem, fork d .black a₁ x (fork d .red a₂ y b)⟩ :: z) t := by
    obtain ⟨n, hz, ht⟩ := h
    refine ⟨n, ?_, ht⟩
    have hsib := hz.1
    rw [hs] at hsib
    obtain ⟨m, hm, hab, hbb⟩ := balanced_black.mp hsib
    cases hm
    obtain ⟨⟨ha₁, -⟩, ha₂, ha₂b⟩ := balanced_red.mp hab
    have hnew : (fork d .black a₁ x (fork d .red a₂ y b)).Balanced (n + 1) :=
      balanced_black.mpr ⟨n, rfl, ha₁, balanced_red.mpr ⟨⟨ha₂, ha₂b⟩, hbb, hb⟩⟩
    cases hc : f.color with
    | red =>
      obtain ⟨-, htop, hz⟩ := (hole_red hc).mp hz
      exact (hole_red rfl).mpr ⟨⟨hnew, by simp⟩, htop, hz⟩
    | black =>
      obtain ⟨-, hz⟩ := (hole_black hc).mp hz
      exact (hole_black rfl).mpr ⟨hnew, hz⟩
  have := hturned.far_red hblack rfl (by simp)
  rwa [paint_fork] at this

theorem Hole.relabel {g : Frame α} {zr : List (Frame α)} {n : ℕ} (h : Hole (zr ++ f :: z) n)
    (hc : f.color = g.color) (hs : f.sibling = g.sibling) : Hole (zr ++ g :: z) n := by
  induction zr generalizing n with
  | nil =>
    simp only [List.nil_append, Hole, hc, hs] at h ⊢
    exact h
  | cons k zr ih =>
    have htop : TopBlack (zr ++ f :: z) → TopBlack (zr ++ g :: z) := by
      cases zr with
      | nil =>
        intro htop
        exact congrArg some (hc.symm.trans htop.color)
      | cons => exact id
    cases hk : k.color with
    | red =>
      obtain ⟨hks, hkt, hkz⟩ := (hole_red hk).mp h
      exact (hole_red hk).mpr ⟨hks, htop hkt, ih hkz⟩
    | black =>
      obtain ⟨hks, hkz⟩ := (hole_black hk).mp h
      exact (hole_black hk).mpr ⟨hks, ih hkz⟩

theorem Tree.Valid.splice {z' : List (Frame α)} {c : Color}
    (h : (plug z (fork d c leaf x b)).Valid) (hz : ∀ n, Hole z n → Hole z' n) :
    (c = .red → (plug z' b).Valid) ∧ (c = .black → Lacks z' b) := by
  obtain ⟨n, hn, hhole, -⟩ := h.hole
  refine ⟨?_, ?_⟩ <;> rintro rfl
  · obtain ⟨-, hb, hbb⟩ := balanced_red.mp hn
    refine (hz n hhole).valid hb fun hred => ?_
    rw [hbb] at hred
    cases hred
  · obtain ⟨k, rfl, -, hb⟩ := balanced_black.mp hn
    exact ⟨k, hz _ hhole, fun _ => hb, hb.paint_black⟩

theorem exists_plug (h : x ∈ t.inorder) : ∃ z c l r, t = plug z (.node c l x r) := by
  induction t with
  | leaf => cases h
  | node c l y r ihl ihr =>
    rcases List.mem_append.mp h with h | h
    · obtain ⟨z, c', l', r', rfl⟩ := ihl h
      refine ⟨z ++ [⟨.left, c, y, r⟩], c', l', r', ?_⟩
      rw [plug_append]
      rfl
    · rcases List.mem_cons.mp h with rfl | h
      · exact ⟨[], c, l, r, rfl⟩
      · obtain ⟨z, c', l', r', rfl⟩ := ihr h
        refine ⟨z ++ [⟨.right, c, y, l⟩], c', l', r', ?_⟩
        rw [plug_append]
        rfl

theorem before_left (h : ∀ f ∈ z, f.side = .left) : before z = [] := by
  induction z with
  | nil => rfl
  | cons f z ih =>
    rw [before, ih fun g hg => h g (List.mem_cons_of_mem _ hg), h f List.mem_cons_self]
    rfl

end Deletion

end Aware.RedBlack
