import Aware.Dns.Shrink

/-!
# The words of a tree

A tree stands at a depth, below the bytes that lead to it. The byte 0 stands in no name and ends all of
them, so no name ends inside another.
-/
namespace Aware.Dns
open Slots

variable {β : Type}

structure Below (depth : ℕ) (word : ℕ → UInt8) (l : ArtLeaf β) : Prop where
  named : 0 ∉ l.key
  depth_le : depth ≤ l.key.length + 1
  bytes : ∀ i < depth, l.byte i = word i

/-- A tree at a depth, below the first bytes of `word`. A node goes on with bytes of its own, of
which only some are stored. -/
inductive Valid : ℕ → (ℕ → UInt8) → Art β → Prop where
  | leaf {depth : ℕ} {word : ℕ → UInt8} {l : ArtLeaf β} (hbelow : Below depth word l) :
      Valid depth word (.leaf l)
  | node {depth : ℕ} {word : ℕ → UInt8} {n : ArtNode} {children : ℕ → Art β} (path : ℕ → UInt8)
      (hlayout : Layout n children) (hpath : ∀ i < depth, path i = word i)
      (hstored : Stored n fun i => path (depth + i))
      (hne : ∀ i < depth + n.partialLen, path i ≠ 0)
      (hkids : ∀ c t, child n children c = some t →
        Valid (depth + n.partialLen + 1) (put path (depth + n.partialLen) c) t) :
      Valid depth word (.node n children)

inductive Holds : Art β → ArtLeaf β → Prop where
  | leaf (l : ArtLeaf β) : Holds (.leaf l) l
  | node {n : ArtNode} {children : ℕ → Art β} {c : UInt8} {t : Art β} {l : ArtLeaf β}
      (hc : child n children c = some t) (hl : Holds t l) : Holds (.node n children) l

section Names
variable {x y : List UInt8} {i : ℕ}

theorem getD_eq_zero_iff (h : 0 ∉ x) : x.getD i 0 = 0 ↔ x.length ≤ i := by
  constructor
  · intro hz
    by_contra hlt
    rw [List.getD_eq_getElem _ _ (by omega)] at hz
    exact h (hz ▸ List.getElem_mem _)
  · exact List.getD_eq_default _ _

theorem prefix_of_getD (hlen : x.length ≤ y.length) (h : ∀ i < x.length, y.getD i 0 = x.getD i 0) :
    x <+: y := by
  rw [List.prefix_iff_eq_take]
  apply List.ext_getElem
  · rw [List.length_take]
    omega
  · intro i hi hi'
    have hbyte := h i hi
    rw [List.getD_eq_getElem _ _ hi, List.getD_eq_getElem _ _ (by omega)] at hbyte
    rw [List.getElem_take, hbyte]

theorem name_eq (hx : 0 ∉ x) (hy : 0 ∉ y) (h : ∀ i ≤ x.length, y.getD i 0 = x.getD i 0) : x = y := by
  have hend : y.length ≤ x.length := by
    rw [← getD_eq_zero_iff hy, h _ (Nat.le_refl _), getD_eq_zero_iff hx]
  have hle : x.length ≤ y.length := by
    rw [← getD_eq_zero_iff hx, ← h _ hend, getD_eq_zero_iff hy]
  exact (prefix_of_getD hle fun i hi => h i (Nat.le_of_lt hi)).eq_of_length (by omega)

end Names

section Trees
variable {depth : ℕ} {word path : ℕ → UInt8} {t : Art β} {l l' : ArtLeaf β} {n : ArtNode}
  {children : ℕ → Art β} {c : UInt8}

theorem Valid.ne_null (h : Valid depth word t) : t ≠ .null := by
  cases h <;> simp

theorem Below.byte_child {k : ℕ} (h : Below (k + 1) (put path k c) l) :
    k ≤ l.key.length ∧ l.byte k = c ∧ ∀ i < k, l.byte i = path i := by
  refine ⟨Nat.le_of_succ_le_succ h.depth_le, ?_, ?_⟩
  · rw [h.bytes k (Nat.lt_succ_self k), put_self]
  · intro i hi
    rw [h.bytes i (by omega), put_of_ne _ _ (Nat.ne_of_lt hi)]

theorem Below.of_child {k : ℕ} (h : Below (k + 1) (put path k c) l) (hk : depth ≤ k)
    (hpath : ∀ i < depth, path i = word i) : Below depth word l := by
  obtain ⟨hlen, -, hbytes⟩ := h.byte_child
  refine ⟨h.named, by omega, fun i hi => ?_⟩
  rw [hbytes i (by omega), hpath i hi]

theorem Valid.leaf_below (h : Valid depth word t) (hl : Holds t l) : Below depth word l := by
  induction h with
  | leaf hbelow =>
    cases hl
    exact hbelow
  | node path hlayout hpath hstored hne hkids ih =>
    cases hl with
    | node hc hl => exact (ih _ _ hc hl).of_child (by omega) hpath

theorem Valid.unique (h : Valid depth word t) (hl : Holds t l) (hl' : Holds t l')
    (heq : l.key = l'.key) : l = l' := by
  induction h with
  | leaf hbelow =>
    cases hl
    cases hl'
    rfl
  | node path hlayout hpath hstored hne hkids ih =>
    cases hl with
    | node hc hl =>
      cases hl' with
      | node hc' hl' =>
        have hbyte := ((hkids _ _ hc).leaf_below hl).byte_child.2.1
        have hbyte' := ((hkids _ _ hc').leaf_below hl').byte_child.2.1
        rw [ArtLeaf.byte, heq, ← ArtLeaf.byte, hbyte'] at hbyte
        subst hbyte
        cases hc.symm.trans hc'
        exact ih _ _ hc hl hl'

theorem child_of_findChild {i : ℕ} (hc : findChild n children c = some i) :
    child n children c = some (children i) := by
  rw [child, hc, Option.map_some]

theorem Valid.minimum (h : Valid depth word t) : ∃ l, minimum t = some l ∧ Holds t l := by
  induction h with
  | leaf hbelow => exact ⟨_, rfl, .leaf _⟩
  | node path hlayout hpath hstored hne hkids ih =>
    obtain ⟨c, i, hslot, hfind⟩ := firstSlot_found hlayout
    obtain ⟨l, hmin, hl⟩ := ih c _ (child_of_findChild hfind)
    refine ⟨l, ?_, .node (child_of_findChild hfind) hl⟩
    rw [Dns.minimum, hslot]
    exact hmin

theorem holds_node : Holds (.node n children) l ↔ ∃ c t, child n children c = some t ∧ Holds t l := by
  constructor
  · intro h
    cases h with
    | node hc hl => exact ⟨_, _, hc, hl⟩
  · rintro ⟨c, t, hc, hl⟩
    exact .node hc hl

theorem Renewed.holds {kids : UInt8 → Option (Art β)} (h : Renewed n kids t) :
    Holds t l ↔ ∃ c t', kids c = some t' ∧ Holds t' l := by
  obtain ⟨n', children', rfl, -, -, rfl⟩ := h
  exact holds_node

theorem Renewed.valid {kids : UInt8 → Option (Art β)} (h : Renewed n kids t)
    (hpath : ∀ i < depth, path i = word i) (hstored : Stored n fun i => path (depth + i))
    (hne : ∀ i < depth + n.partialLen, path i ≠ 0)
    (hkids : ∀ c t, kids c = some t →
      Valid (depth + n.partialLen + 1) (put path (depth + n.partialLen) c) t) :
    Valid depth word t := by
  obtain ⟨n', children', rfl, hlayout, hsame, rfl⟩ := h
  rw [← hsame.1] at hne hkids
  exact .node path hlayout hpath (hsame.stored hstored) hne hkids

end Trees

end Aware.Dns
