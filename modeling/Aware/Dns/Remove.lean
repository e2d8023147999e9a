import Aware.Dns.Insert

/-!
# Deleting a name

`recursive_delete` finds what `art_search` finds and takes that leaf out. A node with a single child
left gives its place to the child.
-/
namespace Aware.Dns
open Function Slots

variable {β : Type}

/-- Nothing was found and nothing changed, or one leaf is gone. -/
def Outcome (depth : ℕ) (word : ℕ → UInt8) (name : List UInt8) (t t' : Art β) :
    Option (ArtLeaf β) → Prop
  | none => t' = t
  | some l => l.key = name ∧ Holds t l ∧ (∀ l', Holds t' l' ↔ Holds t l' ∧ l' ≠ l) ∧
      (t = .leaf l ∧ t' = .null ∨ Valid depth word t')

section Remove
variable {depth : ℕ} {word path : ℕ → UInt8} {key : ℕ → UInt8} {name : List UInt8}
  {n m : ArtNode} {children : ℕ → Art β} {t t' : Art β} {c : UInt8} {l : ArtLeaf β} {i : ℕ}

theorem Lifted.valid (h : Lifted n c t t') (hpath : ∀ i < depth, path i = word i)
    (hstored : Stored n fun i => path (depth + i))
    (ht : Valid (depth + n.partialLen + 1) (put path (depth + n.partialLen) c) t) :
    Valid depth word t' ∧ ∀ l, Holds t' l ↔ Holds t l := by
  cases h with
  | leaf l =>
    cases ht with
    | leaf hbelow => exact ⟨.leaf (hbelow.of_child (by omega) hpath), fun _ => .rfl⟩
  | node n' m children hsame hkey =>
    cases ht with
    | node path' hlayout hpath' hstored' hnz hkids =>
      have hlow : ∀ i < depth + n.partialLen, path' i = path i := by
        intro i hi
        rw [hpath' i (by omega), put_of_ne _ _ (Nat.ne_of_lt hi)]
      have hbyte : path' (depth + n.partialLen) = c := by
        rw [hpath' _ (by omega), put_self]
      obtain ⟨hlayout', hchild⟩ := hlayout.header (joinHeader n' m) rfl rfl rfl
      have hlen : depth + (m.partialLen + (n'.partialLen + 1)) =
          depth + n.partialLen + 1 + m.partialLen := by
        rw [hsame.1]
        omega
      have hjoin : Stored (joinHeader n' m) fun i => path' (depth + i) := by
        apply joinHeader_stored
        · intro i hi
          rw [hsame.1] at hi
          calc n'.partialKey i = n.partialKey i := hsame.2 i hi
            _ = path (depth + i) := hstored i hi
            _ = path' (depth + i) := (hlow _ (by omega)).symm
        · rw [hkey, hsame.1, hbyte]
        · intro i hi
          rw [hstored' i hi, hsame.1]
          exact congrArg path' (by omega)
      refine ⟨.node path' hlayout' (fun i hi => ?_) hjoin ?_ ?_, fun l => ?_⟩
      · rw [hlow i (by omega), hpath i hi]
      · change ∀ i < depth + (m.partialLen + (n'.partialLen + 1)), path' i ≠ 0
        rw [hlen]
        exact hnz
      · rw [hchild]
        change ∀ c t, _ → Valid (depth + (m.partialLen + (n'.partialLen + 1)) + 1)
          (put path' (depth + (m.partialLen + (n'.partialLen + 1))) c) t
        rw [hlen]
        exact hkids
      · rw [holds_node, holds_node, hchild]

section Node
variable (hpath : ∀ i < depth, path i = word i) (hstored : Stored n fun i => path (depth + i))
  (hnz : ∀ i < depth + n.partialLen, path i ≠ 0)
  (hkids : ∀ c t, child n children c = some t →
    Valid (depth + n.partialLen + 1) (put path (depth + n.partialLen) c) t)
include hpath hstored hnz hkids

theorem Reduced.outcome (h : Reduced n (update (child n children) c none) t')
    (hc : child n children c = some (.leaf l)) :
    Outcome depth word l.key (.node n children) t' (some l) := by
  have hold : ∀ c' t₁, update (child n children) c none c' = some t₁ →
      c' ≠ c ∧ child n children c' = some t₁ := by
    intro c' t₁ hc'
    by_cases heq : c' = c
    · rw [heq, update_self] at hc'
      cases hc'
    · rw [update_of_ne heq] at hc'
      exact ⟨heq, hc'⟩
  have hbyte := ((hkids _ _ hc).leaf_below (.leaf l)).byte_child.2.1
  have hrest : ∀ l', (∃ c' t₁, update (child n children) c none c' = some t₁ ∧ Holds t₁ l') ↔
      Holds (.node n children) l' ∧ l' ≠ l := by
    intro l'
    constructor
    · rintro ⟨c', t₁, hc', hl'⟩
      obtain ⟨hne, hc'⟩ := hold c' t₁ hc'
      refine ⟨.node hc' hl', fun heq => hne ?_⟩
      rw [← hbyte, ← heq]
      exact ((hkids _ _ hc').leaf_below hl').byte_child.2.1.symm
    · rintro ⟨hl', hne⟩
      obtain ⟨c', t₁, hc', hl'⟩ := holds_node.mp hl'
      refine ⟨c', t₁, ?_, hl'⟩
      rw [update_of_ne, hc']
      intro heq
      rw [heq, hc] at hc'
      cases hc'
      cases hl'
      exact hne rfl
  have hkids' : ∀ c' t₁, update (child n children) c none c' = some t₁ →
      Valid (depth + n.partialLen + 1) (put path (depth + n.partialLen) c') t₁ :=
    fun c' t₁ hc' => hkids c' t₁ (hold c' t₁ hc').2
  refine ⟨rfl, .node hc (.leaf l), ?_⟩
  rcases h with hren | ⟨c₁, t₁, hsingle, hlift⟩
  · exact ⟨fun l' => hren.holds.trans (hrest l'), .inr (hren.valid hpath hstored hnz hkids')⟩
  · rw [hsingle] at hkids' hrest
    obtain ⟨hvalid, hholds⟩ := hlift.valid hpath hstored (hkids' c₁ t₁ (update_self ..))
    refine ⟨fun l' => (hholds l').trans (Iff.trans ?_ (hrest l')), .inr hvalid⟩
    constructor
    · intro hl'
      exact ⟨c₁, t₁, update_self .., hl'⟩
    · rintro ⟨c', t₂, hc', hl'⟩
      by_cases heq : c' = c₁
      · rw [heq, update_self, Option.some.injEq] at hc'
        rwa [hc']
      · rw [update_of_ne heq] at hc'
        cases hc'

theorem outcome_child (hlayout : Layout n children) (hfind : findChild n children c = some i)
    {r : Option (ArtLeaf β)} (hnode : ∀ l, children i ≠ .leaf l)
    (h : Outcome (depth + n.partialLen + 1) (put path (depth + n.partialLen) c) name (children i) t' r) :
    Outcome depth word name (.node n children) (.node n (put children i t')) r := by
  have hc := child_of_findChild hfind
  cases r with
  | none =>
    have hsame : put children i t' = children := by
      funext j
      by_cases hj : j = i
      · rw [hj, put_self]
        exact h
      · rw [put_of_ne _ _ hj]
    rw [hsame]
    rfl
  | some l =>
    obtain ⟨hname, hl, hrest, ⟨hleaf, -⟩ | hvalid⟩ := h
    · exact absurd hleaf (hnode l)
    have hren := renewed_put hlayout hfind hvalid.ne_null
    have hbyte := ((hkids _ _ hc).leaf_below hl).byte_child.2.1
    refine ⟨hname, .node hc hl, fun l' => hren.holds.trans ?_, .inr ?_⟩
    · constructor
      · rintro ⟨c', t₁, hc', hl'⟩
        by_cases heq : c' = c
        · rw [heq, update_self, Option.some.injEq] at hc'
          rw [← hc'] at hl'
          exact ((hrest l').mp hl').imp_left (.node hc)
        · rw [update_of_ne heq] at hc'
          refine ⟨.node hc' hl', fun hll => heq ?_⟩
          rw [← hbyte, ← hll]
          exact ((hkids _ _ hc').leaf_below hl').byte_child.2.1.symm
      · rintro ⟨hl', hne⟩
        obtain ⟨c', t₁, hc', hl'⟩ := holds_node.mp hl'
        by_cases heq : c' = c
        · rw [heq, hc] at hc'
          cases hc'
          exact ⟨c, t', update_self .., (hrest l').mpr ⟨hl', hne⟩⟩
        · exact ⟨c', t₁, (update_of_ne heq ..).trans hc', hl'⟩
    · refine hren.valid hpath hstored hnz fun c' t₁ hc' => ?_
      by_cases heq : c' = c
      · rw [heq, update_self, Option.some.injEq] at hc'
        rw [heq, ← hc']
        exact hvalid
      · rw [update_of_ne heq] at hc'
        exact hkids c' t₁ hc'

end Node

theorem recursiveDelete_outcome (h : Valid depth word t) (hs : Spells key name) :
    ∃ t' r, recursiveDelete key name.length t depth = some (t', r) ∧
      r.map ArtLeaf.value = searchFrom key name.length t depth ∧ Outcome depth word name t t' r := by
  induction h with
  | @leaf depth word l hbelow =>
    rw [recursiveDelete, searchFrom]
    by_cases heq : l.key = name
    · rw [if_pos (hs.leafMatches.mpr heq), if_pos (hs.leafMatches.mpr heq)]
      refine ⟨.null, some l, rfl, rfl, heq, .leaf l, fun l' => ?_, .inl ⟨rfl, rfl⟩⟩
      constructor
      · intro hl'
        cases hl'
      · rintro ⟨hl', hne⟩
        cases hl'
        exact absurd rfl hne
    · rw [if_neg (mt hs.leafMatches.mp heq), if_neg (mt hs.leafMatches.mp heq)]
      exact ⟨.leaf l, none, rfl, rfl, rfl⟩
  | @node depth word n children path hlayout hpath hstored hnz hkids ih =>
    rw [recursiveDelete]
    by_cases hcheck : n.partialLen ≠ 0 ∧
        checkPrefix n key name.length depth ≠ min maxPrefixLen n.partialLen
    · rw [if_pos hcheck, searchFrom, if_pos hcheck]
      exact ⟨_, none, rfl, rfl, rfl⟩
    rw [if_neg hcheck, searchFrom_node hcheck]
    cases hfind : findChild n children (key (depth + n.partialLen)) with
    | none =>
      rw [child, hfind]
      exact ⟨_, none, rfl, rfl, rfl⟩
    | some i =>
      have hc := child_of_findChild hfind
      rw [hc, Option.bind_some]
      cases hchild : children i with
      | null => exact absurd hchild (findChild_present hlayout hfind)
      | leaf l =>
        simp only [hchild, searchFrom]
        by_cases heq : l.key = name
        · rw [if_pos (hs.leafMatches.mpr heq), if_pos (hs.leafMatches.mpr heq)]
          obtain ⟨t', hremove, hreduced⟩ := removeChild_reduced hlayout hfind
          rw [hchild] at hc
          refine ⟨t', some l, ?_, rfl, heq ▸ hreduced.outcome hpath hstored hnz hkids hc⟩
          rw [hremove, Option.map_some]
        · rw [if_neg (mt hs.leafMatches.mp heq), if_neg (mt hs.leafMatches.mp heq)]
          exact ⟨_, none, rfl, rfl, rfl⟩
      | node m grandchildren =>
        obtain ⟨t', r, hdelete, hfound, hout⟩ := ih _ _ hc
        rw [hchild] at hdelete hfound
        refine ⟨.node n (put children i t'), r, ?_, hfound,
          outcome_child hpath hstored hnz hkids hlayout hfind (by simp [hchild]) hout⟩
        simp only [hchild, hdelete, Option.map_some]

end Remove

end Aware.Dns
