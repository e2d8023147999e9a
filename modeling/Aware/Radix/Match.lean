import Aware.Radix.Invariant

/-!
# Matching is longest-prefix matching

The reached chain beats every leaf of another key, since its own masks leave nothing after them.
When it has no mask that is short enough, the annotations above it are met longest first.
-/
namespace Aware.Radix
open Aware.BitStrings

variable {w : ℕ} {δ : Type} {lo n d : ℕ} {data : δ} {t : Tree w δ} {v k : BitVec w}

def Longest (t : Tree w δ) (v : BitVec w) : Option (Leaf w δ) → Prop
  | none => ∀ k n data, t.entry k n = some data → ¬ Agree n v k
  | some r => t.entry r.key r.len = some r.data ∧ Agree r.len v r.key ∧
      ∀ k n data, t.entry k n = some data → Agree n v k → n ≤ r.len

theorem Tree.Shaped.exists_part (h : t.Shaped) (hk : t.HasKey k) (hne : k ≠ (rnSearch v t).key) :
    ∃ n, v.getMsbD n = (rnSearch v t).key.getMsbD n ∧ v.getMsbD n ≠ k.getMsbD n := by
  induction t with
  | leaf g => exact absurd (Eq.symm hk) hne
  | node n ms child ih =>
    obtain ⟨side, hside⟩ := hk
    by_cases hv : side = v.getMsbD n
    · subst hv
      exact ih _ (h.below _) hside hne
    · refine ⟨n, (h.side (hasKey_rnSearch v (child (v.getMsbD n)))).symm, ?_⟩
      rw [h.side hside]
      exact Ne.symm hv

theorem Tree.Neat.len_le_of_ne (h : t.Neat) (hk : t.entry k n = some data) (hmatch : Agree n v k)
    (hne : k ≠ (rnSearch v t).key) {y : Duped δ} (hy : y ∈ (rnSearch v t).chain) : n ≤ y.len := by
  obtain ⟨i, hsame, hpart⟩ := h.shaped.exists_part (hasKey_of_entry hk) hne
  by_contra hlt
  have hi : n ≤ i := hmatch.le_of_ne hpart
  have hkey : (rnSearch v t).key.getMsbD i = false := (h.reached hy).clean i (by omega)
  have hleaf : k.getMsbD i = false := (h.fresh k n data hk).clean i hi
  exact hpart (by rw [hsame, hkey, hleaf])

theorem Tree.Neat.len_le (h : t.Neat) {y : Duped δ} (hy : y ∈ (rnSearch v t).chain)
    (hlong : ∀ z ∈ (rnSearch v t).chain, Agree z.len v (rnSearch v t).key → z.len ≤ y.len)
    (hk : t.entry k n = some data) (hmatch : Agree n v k) : n ≤ y.len := by
  by_cases hne : k = (rnSearch v t).key
  · rw [h.shaped.entry_eq_some_iff, hne, h.shaped.rnSearch_eq (holds_rnSearch v t)] at hk
    obtain ⟨-, z, hz, rfl, -⟩ := hk
    exact hlong z hz (hne ▸ hmatch)
  · exact h.len_le_of_ne hk hmatch hne hy

theorem accepts_iff (v : BitVec w) (g : Group w δ) (y : Duped δ) :
    g.accepts v d y = true ↔ y.len ≤ d := by
  unfold Group.accepts
  split
  · exact decide_eq_true_iff
  · next hlen =>
      have hzero : y.len = 0 := by simpa [normal] using hlen
      simp [rnSatisfiesLeaf, Group.leaf, hzero]

theorem climb_of_chain {y : Duped δ}
    (hy : (rnSearch v t).chain.find? ((rnSearch v t).accepts v d) = some y) :
    climb v d t = some ((rnSearch v t).leaf y) := by
  induction t with
  | leaf g =>
    simp only [rnSearch] at hy
    simp only [climb, rnSearch, hy, Option.map_some]
  | node bit ms child ih =>
    rw [climb, ih _ hy]
    rfl

theorem rnSearchM_zero (v : BitVec w) (t : Tree w δ) : rnSearchM v 0 t = rnSearch 0 t := by
  induction t with
  | leaf g => rfl
  | node bit ms child ih => simpa [rnSearchM, rnSearch] using ih false

theorem Tree.Neat.hit_eq (h : t.Neat) {m : RadixMask w δ}
    (hm : t.entry m.leaf.key m.leaf.len = some m.leaf.data) :
    m.hit n t v d = if m.len ≤ d then some m.leaf else none := by
  unfold RadixMask.hit
  split
  · rfl
  · next hnormal =>
      have hlen : m.leaf.len = 0 := by simpa [normal, RadixMask.len] using hnormal
      have hkey : m.leaf.key = 0 := (hlen ▸ (h.fresh _ _ _ hm).clean).eq_zero
      obtain ⟨hreach, y, hy, hylen, hydata⟩ := h.shaped.entry_eq_some_iff.mp hm
      rw [hkey] at hreach hy
      rw [hlen] at hylen
      have hfind := (h.shaped.search 0).sorted.find?_eq_some_iff.mpr ⟨hy, hylen⟩
      have hleaf : (rnSearch 0 t).leaf y = m.leaf := by
        rw [Group.leaf, hreach, hylen, hydata, ← hkey, ← hlen]
      simp only [RadixMask.len, hlen, rnSearchM_zero, hfind, hleaf, Nat.zero_le, if_true]
      simp [rnSatisfiesLeaf, hlen]

theorem findSome_eq_find {f : RadixMask w δ → Option (Leaf w δ)} {ms : List (RadixMask w δ)}
    (h : ∀ m ∈ ms, f m = if m.len ≤ d then some m.leaf else none) :
    ms.findSome? f = (ms.find? fun m => decide (m.len ≤ d)).map RadixMask.leaf := by
  induction ms with
  | nil => rfl
  | cons m ms ih =>
    rw [List.findSome?_cons, List.find?_cons, h m (by simp)]
    by_cases hd : m.len ≤ d
    · simp [hd]
    · simpa [hd] using ih fun m' hm' => h m' (by simp [hm'])

/-- Past the bit of a node a match lies on the path of `v`. -/
theorem Tree.Shaped.entry_deep {ms : List (RadixMask w δ)} {child : Bool → Tree w δ} {i : ℕ}
    (h : (Tree.node n ms child).Shaped) (hk : (Tree.node n ms child).entry k i = some data)
    (hmatch : Agree i v k) (hi : n < i) : (child (v.getMsbD n)).entry k i = some data := by
  rwa [h.entry_below, if_pos (hmatch n hi).symm]

/-- The annotations above a chain without a short enough mask, longest first. -/
theorem Wf.climb_spec (h : Wf none lo t) (ht : t.Neat)
    (hd : v.getMsbD d ≠ (rnSearch v t).key.getMsbD d)
    (hchain : ∀ y ∈ (rnSearch v t).chain, ¬ y.len ≤ d) :
    match climb v d t with
    | none => ∀ k n data, t.entry k n = some data → lo ≤ n → ¬ Agree n v k
    | some r => t.entry r.key r.len = some r.data ∧ lo ≤ r.len ∧ r.len ≤ d ∧
        Agree r.len r.key (rnSearch v t).key ∧
        ∀ k n data, t.entry k n = some data → lo ≤ n → Agree n v k → n ≤ r.len := by
  induction t generalizing lo with
  | leaf g =>
    have hfind : g.chain.find? (g.accepts v d) = none :=
      List.find?_eq_none.mpr fun y hy => by simpa [accepts_iff] using hchain y hy
    simp only [climb, hfind, Option.map_none]
    intro k n data hk _ hmatch
    obtain ⟨hkey, y, hy, hlen, -⟩ := ht.shaped.entry_eq_some_iff.mp hk
    obtain rfl : g.key = k := hkey
    exact hchain y hy (hlen ▸ hmatch.le_of_ne hd)
  | node n ms child ih =>
    obtain ⟨hlo, hchild, hlist⟩ := h
    have ih := ih (v.getMsbD n) (hchild _) (ht.below _) hd hchain
    have hkey := fun k hk => ht.shaped.agree (k := k) hk (hasKey_rnSearch v (.node n ms child))
    rw [climb]
    cases hc : climb v d (child (v.getMsbD n)) with
    | some r =>
      rw [hc] at ih
      obtain ⟨hr, hn, hrd, hagree, hlong⟩ := ih
      rw [ht.shaped.entry_below] at hr
      split at hr
      · refine ⟨hr, by omega, hrd, hagree, fun k i data hk _ hmatch => ?_⟩
        by_cases hi : n < i
        · exact hlong k i data (ht.shaped.entry_deep hk hmatch hi) hi hmatch
        · omega
      · cases hr
    | none =>
      rw [hc] at ih
      have hlisted : ∀ k i data, (Tree.node n ms child).entry k i = some data → lo ≤ i →
          Agree i v k → (∃ m ∈ ms, m.leaf = ⟨k, i, data⟩) ∧ i ≤ d := by
        intro k i data hk hi hmatch
        have hn : i ≤ n := Nat.le_of_not_lt fun hlt =>
          ih k i data (ht.shaped.entry_deep hk hmatch hlt) hlt hmatch
        refine ⟨(hlist.mem ⟨k, i, data⟩).mpr ⟨hk, hi, hn⟩, ?_⟩
        exact (hmatch.trans ((hkey k (hasKey_of_entry hk)).mono hn)).le_of_ne hd
      have hentry := fun m hm => ((hlist.mem m.leaf).mp ⟨m, hm, rfl⟩)
      simp only [findSome_eq_find fun m hm => ht.hit_eq (hentry m hm).1]
      cases hf : ms.find? fun m => decide (m.len ≤ d) with
      | none =>
        intro k i data hk hi hmatch
        obtain ⟨⟨m, hm, hleaf⟩, hid⟩ := hlisted k i data hk hi hmatch
        refine List.find?_eq_none.mp hf m hm (decide_eq_true ?_)
        rwa [RadixMask.len, hleaf]
      | some m =>
        obtain ⟨hm, hlo', hn⟩ := hentry m (List.mem_of_find?_eq_some hf)
        have hmd : m.len ≤ d := by simpa using List.find?_some hf
        refine ⟨hm, hlo', hmd, (hkey _ (hasKey_of_entry hm)).mono hn, ?_⟩
        intro k i data hk hi hmatch
        obtain ⟨⟨m', hm', hleaf⟩, hid⟩ := hlisted k i data hk hi hmatch
        have hlen : m'.len = i := congrArg Leaf.len hleaf
        exact hlen ▸ hlist.sorted.le_of_find? hf hm' (hlen ▸ hid)

theorem Tree.Neat.head_longest (h : t.Neat) {y : Duped δ}
    (hcmp : Agree (rnSearch v t).compared v (rnSearch v t).key)
    (hhead : (rnSearch v t).chain.head? = some y) :
    Longest t v (some ((rnSearch v t).leaf y)) := by
  have hy : y ∈ (rnSearch v t).chain := List.mem_of_mem_head? hhead
  have hagree : Agree y.len v (rnSearch v t).key := by
    refine hcmp.mono ?_
    have := (h.reached hy).bound
    obtain ⟨ds, hds⟩ := List.head?_eq_some_iff.mp hhead
    unfold Group.compared
    split
    · simp_all
      omega
    · exact this
  refine ⟨h.shaped.entry_of_mem rfl hy, hagree, fun k n data => h.len_le hy fun z hz _ => ?_⟩
  exact (h.shaped.search v).sorted.le_head hhead hz

theorem Tree.Neat.uncovered_of_nil (h : t.Neat) (hv : v ≠ BitVec.allOnes w)
    (hcmp : Agree (rnSearch v t).compared v (rnSearch v t).key)
    (hnil : (rnSearch v t).chain = []) : Longest t v none := by
  have hformed := h.shaped.search v
  have hroot : (rnSearch v t).root = true := by
    by_contra hroot
    exact hformed.filled (by simpa using hroot) hnil
  have hkey : v = (rnSearch v t).key := hcmp.eq (by simp [Group.compared, hroot])
  have hzero : (rnSearch v t).key = 0 := (hformed.ends hroot).resolve_right (hkey ▸ hv)
  intro k n data hk hmatch
  have hclean : Clean n v := fun i _ => by rw [hkey, hzero]; simp
  obtain rfl : v = k := hmatch.eq_of_clean hclean (h.fresh k n data hk).clean
  obtain ⟨-, y, hy, -⟩ := h.shaped.entry_eq_some_iff.mp hk
  rw [hnil] at hy
  cases hy

theorem Valid.climb_longest (h : Valid t) (hagree : Agree d v (rnSearch v t).key)
    (hd : v.getMsbD d ≠ (rnSearch v t).key.getMsbD d) : Longest t v (climb v d t) := by
  have haccepts : (rnSearch v t).accepts v d = fun y => decide (y.len ≤ d) := by
    funext y
    rw [Bool.eq_iff_iff, accepts_iff, decide_eq_true_iff]
  cases hf : (rnSearch v t).chain.find? ((rnSearch v t).accepts v d) with
  | some y =>
    rw [climb_of_chain hf]
    rw [haccepts] at hf
    have hy := List.mem_of_find?_eq_some hf
    have hyd : y.len ≤ d := by simpa using List.find?_some hf
    refine ⟨h.kept.shaped.entry_of_mem rfl hy, hagree.mono hyd,
      fun k n data => h.neat.len_le hy fun z hz hmatch => ?_⟩
    exact (h.kept.shaped.search v).sorted.le_of_find? hf hz (hmatch.le_of_ne hd)
  | none =>
    have hchain : ∀ y ∈ (rnSearch v t).chain, ¬ y.len ≤ d := by
      intro y hy
      simpa [accepts_iff] using List.find?_eq_none.mp hf y hy
    have hspec := h.wf.climb_spec h.neat hd hchain
    cases hc : climb v d t with
    | none =>
      rw [hc] at hspec
      exact fun k n data hk => hspec k n data hk (Nat.zero_le _)
    | some r =>
      rw [hc] at hspec
      obtain ⟨hr, -, hrd, hkey, hlong⟩ := hspec
      exact ⟨hr, (hagree.mono hrd).trans hkey.symm,
        fun k n data hk => hlong k n data hk (Nat.zero_le _)⟩

theorem Valid.rnMatch_some (h : Valid t) {l : Leaf w δ} (hl : rnMatch v t = some l) :
    Longest t v (some l) := by
  cases hdiff : firstDiff (rnSearch v t).compared v (rnSearch v t).key with
  | none =>
    simp only [rnMatch, hdiff] at hl
    obtain ⟨y, hy, rfl⟩ := Option.map_eq_some_iff.mp hl
    exact h.neat.head_longest (firstDiff_eq_none_iff.mp hdiff) hy
  | some d =>
    obtain ⟨-, hagree, hd⟩ := firstDiff_eq_some hdiff
    simp only [rnMatch, hdiff] at hl
    rw [← hl]
    exact h.climb_longest hagree hd

/-- `rn_match` finds the longest prefix of every address but all ones. -/
theorem Valid.rnMatch_longest (h : Valid t) (hv : v ≠ BitVec.allOnes w) :
    Longest t v (rnMatch v t) := by
  cases hmatch : rnMatch v t with
  | some l => exact h.rnMatch_some hmatch
  | none =>
    cases hdiff : firstDiff (rnSearch v t).compared v (rnSearch v t).key with
    | none =>
      simp only [rnMatch, hdiff, Option.map_eq_none_iff, List.head?_eq_none_iff] at hmatch
      exact h.neat.uncovered_of_nil hv (firstDiff_eq_none_iff.mp hdiff) hmatch
    | some d =>
      obtain ⟨-, hagree, hd⟩ := firstDiff_eq_some hdiff
      simp only [rnMatch, hdiff] at hmatch
      rw [← hmatch]
      exact h.climb_longest hagree hd

end Aware.Radix
