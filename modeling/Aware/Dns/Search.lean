import Aware.Dns.Valid

/-!
# Searching for a name

`art_search` compares only the bytes of a prefix that are stored, and reads the byte behind the name
when the name ends at a node. The leaf is compared in full.
-/
namespace Aware.Dns
open Slots

variable {β : Type}

def Spells (key : ℕ → UInt8) (name : List UInt8) : Prop :=
  ∀ i < name.length, key i = name.getD i 0

section Buffers
variable {key : ℕ → UInt8} {name : List UInt8} {l : ArtLeaf β} {i : ℕ}

theorem Spells.slice (h : Spells key name) : Memory.slice key 0 name.length = name := by
  apply List.ext_getElem
  · rw [Memory.length_slice]
  · intro i _ hi
    have hbyte := h i hi
    rw [List.getD_eq_getElem _ _ hi] at hbyte
    simpa [Memory.slice] using hbyte

theorem spells_slice (key : ℕ → UInt8) (k : ℕ) : Spells key (Memory.slice key 0 k) := by
  intro i hi
  rw [List.getD_eq_getElem _ _ hi]
  simp [Memory.slice]

theorem Spells.leafMatches (h : Spells key name) : leafMatches l key name.length = true ↔ l.key = name := by
  rw [Dns.leafMatches, h.slice, beq_iff_eq]

theorem Spells.makeLeaf (h : Spells key name) (value : β) :
    makeLeaf key name.length value = ⟨value, name⟩ := by
  rw [Dns.makeLeaf, h.slice]

theorem Spells.byte (h : Spells key name) (hend : key name.length = 0) (hi : i ≤ name.length) :
    key i = name.getD i 0 := by
  rcases Nat.lt_or_eq_of_le hi with hlt | rfl
  · exact h i hlt
  · rw [hend, List.getD_eq_default _ _ (Nat.le_refl _)]

end Buffers

section Search
variable {key : ℕ → UInt8} {name : List UInt8} {depth : ℕ} {word : ℕ → UInt8} {t : Art β}
  {l : ArtLeaf β} {n : ArtNode} {children : ℕ → Art β}

theorem checkPrefix_eq {len : ℕ} (hlen : depth + n.partialLen ≤ len)
    (hstored : Stored n fun i => key (depth + i)) :
    checkPrefix n key len depth = min maxPrefixLen n.partialLen := by
  apply firstDiff_eq
  · omega
  · omega
  · intro i _ hi
    exact hstored i hi
  · omega

theorem searchFrom_node {len : ℕ} (h : ¬ (n.partialLen ≠ 0 ∧
      checkPrefix n key len depth ≠ min maxPrefixLen n.partialLen)) :
    searchFrom key len (.node n children) depth =
      (child n children (key (depth + n.partialLen))).bind fun t =>
        searchFrom key len t (depth + n.partialLen + 1) := by
  rw [searchFrom, if_neg h, child]
  cases findChild n children (key (depth + n.partialLen)) <;> rfl

theorem searchFrom_sound {v : β} (hs : Spells key name)
    (h : searchFrom key name.length t depth = some v) : Holds t ⟨v, name⟩ := by
  induction t generalizing depth with
  | null => cases h
  | leaf l =>
    rw [searchFrom] at h
    split at h
    · next hmatch =>
        cases h
        rw [← hs.leafMatches.mp hmatch]
        exact .leaf l
    · cases h
  | node n children ih =>
    by_cases hcheck : n.partialLen ≠ 0 ∧
        checkPrefix n key name.length depth ≠ min maxPrefixLen n.partialLen
    · rw [searchFrom, if_pos hcheck] at h
      cases h
    · rw [searchFrom_node hcheck] at h
      obtain ⟨t, hc, hfound⟩ := Option.bind_eq_some_iff.mp h
      obtain ⟨i, -, rfl⟩ := Option.map_eq_some_iff.mp hc
      exact .node hc (ih i hfound)

theorem longer_leaf {path : ℕ → UInt8} {c : UInt8} (hlayout : Layout n children)
    (hkids : ∀ c t, child n children c = some t →
      Valid (depth + n.partialLen + 1) (put path (depth + n.partialLen) c) t)
    (hc : child n children c = some t) (hl : Holds t l) (hend : depth + n.partialLen = l.key.length) :
    ∃ l', Holds (.node n children) l' ∧ l.key <+: l'.key ∧ l.key ≠ l'.key := by
  obtain ⟨c', t', hc', hne⟩ : ∃ c' t', child n children c' = some t' ∧ c' ≠ 0 := by
    obtain ⟨c₁, c₂, t₁, t₂, hne, h₁, h₂⟩ := two_children hlayout
    by_cases hz : c₁ = 0
    · exact ⟨c₂, t₂, h₂, fun hz₂ => hne (hz.trans hz₂.symm)⟩
    · exact ⟨c₁, t₁, h₁, hz⟩
  obtain ⟨l', -, hl'⟩ := (hkids c' t' hc').minimum
  have hbelow := (hkids c t hc).leaf_below hl
  have hbelow' := (hkids c' t' hc').leaf_below hl'
  obtain ⟨-, -, hbytes⟩ := hbelow.byte_child
  obtain ⟨hlen, hbyte, hbytes'⟩ := hbelow'.byte_child
  refine ⟨l', .node hc' hl', prefix_of_getD (by omega) fun i hi => ?_, ?_⟩
  · exact (hbytes' i (by omega)).trans (hbytes i (by omega)).symm
  · intro heq
    rw [ArtLeaf.byte, ← heq, hend, List.getD_eq_default _ _ (Nat.le_refl _)] at hbyte
    exact hne hbyte.symm

/-- A name of the tree is found if the terminator follows it, or if no name goes on with it. -/
theorem searchFrom_complete (h : Valid depth word t) (hl : Holds t l) (hs : Spells key l.key)
    (hend : key l.key.length = 0 ∨ ∀ l', Holds t l' → l.key <+: l'.key → l.key = l'.key) :
    searchFrom key l.key.length t depth = some l.value := by
  induction h with
  | leaf hbelow =>
    cases hl
    exact if_pos (hs.leafMatches.mpr rfl)
  | @node depth word n children path hlayout hpath hstored hne hkids ih =>
    cases hl with
    | @node _ _ c t _ hc hl =>
      obtain ⟨hlen, hbyte, hbytes⟩ := ((hkids _ _ hc).leaf_below hl).byte_child
      have hcheck : checkPrefix n key l.key.length depth = min maxPrefixLen n.partialLen := by
        apply checkPrefix_eq hlen
        intro i hi
        calc n.partialKey i = path (depth + i) := hstored i hi
          _ = l.byte (depth + i) := (hbytes _ (by omega)).symm
          _ = key (depth + i) := (hs _ (by omega)).symm
      have hnext : key (depth + n.partialLen) = c := by
        rcases Nat.lt_or_eq_of_le hlen with hlt | heq
        · exact (hs _ hlt).trans hbyte
        · rcases hend with hzero | hnone
          · rw [heq, hzero, ← hbyte, heq, ArtLeaf.byte, List.getD_eq_default _ _ (Nat.le_refl _)]
          · obtain ⟨l', hl', hpre, hdiff⟩ := longer_leaf hlayout hkids hc hl heq
            exact absurd (hnone l' hl' hpre) hdiff
      rw [searchFrom_node fun hbad => hbad.2 hcheck, hnext, hc]
      exact ih _ _ hc hl (hend.imp_right fun hnone l' hl' => hnone l' (.node hc hl'))

/-- Where a longer name branches off, the search for the shorter one follows the byte behind it. -/
theorem searchFrom_leaves {l' : ArtLeaf β} (h : Valid depth word t) (hl : Holds t l) (hl' : Holds t l')
    (hpre : l.key <+: l'.key) (hne : l.key ≠ l'.key) (hs : Spells key l.key)
    (hend : key l.key.length = l'.byte l.key.length) :
    searchFrom key l.key.length t depth = none := by
  induction h with
  | leaf hbelow =>
    cases hl
    cases hl'
    exact absurd rfl hne
  | @node depth word n children path hlayout hpath hstored hnz hkids ih =>
    by_cases hcheck : n.partialLen ≠ 0 ∧
        checkPrefix n key l.key.length depth ≠ min maxPrefixLen n.partialLen
    · rw [searchFrom, if_pos hcheck]
    · rw [searchFrom_node hcheck]
      cases hl with
      | @node _ _ c t _ hc hl =>
        cases hl' with
        | @node _ _ c' t' _ hc' hl' =>
          have hbelow := (hkids _ _ hc).leaf_below hl
          have hbelow' := (hkids _ _ hc').leaf_below hl'
          obtain ⟨hlen, hbyte, -⟩ := hbelow.byte_child
          obtain ⟨-, hbyte', -⟩ := hbelow'.byte_child
          rcases Nat.lt_or_eq_of_le hlen with hlt | heq
          · -- both names are below the same child
            have hsame : c' = c := by
              obtain ⟨rest, hrest⟩ := hpre
              rw [← hbyte', ← hbyte, ArtLeaf.byte, ArtLeaf.byte, ← hrest,
                List.getD_append _ _ _ _ hlt]
            subst hsame
            cases hc.symm.trans hc'
            rw [hs _ hlt, ← ArtLeaf.byte, hbyte, hc]
            exact ih _ _ hc hl hl'
          · -- the shorter name ends here and is not below this child
            have hnext : key (depth + n.partialLen) = c' := by
              rw [heq, hend, ← hbyte', heq]
            rw [hnext, hc', Option.bind_some]
            cases hfound : searchFrom key l.key.length t' (depth + n.partialLen + 1) with
            | none => rfl
            | some v =>
              have hbad := (hkids _ _ hc').leaf_below (searchFrom_sound hs hfound)
              have hzero := hbad.byte_child.2.1
              rw [ArtLeaf.byte, heq, List.getD_eq_default _ _ (Nat.le_refl _)] at hzero
              have hle := (getD_eq_zero_iff hbelow'.named).mp (hbyte'.trans hzero.symm)
              exact absurd (hpre.eq_of_length (by have := hpre.length_le; omega)) hne

end Search

end Aware.Dns
