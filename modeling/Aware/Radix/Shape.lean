import Aware.Radix.Tree

/-!
# The shape of the tree

The keys under a node agree up to its bit and part there, every chain has its longest mask first,
and a root leaf is below the top node on either side. Annotations have no part in it.
-/
namespace Aware.Radix
open Function Aware.BitStrings

variable {w : ℕ} {δ : Type} {t t' : Tree w δ} {v k : BitVec w} {len n b : ℕ} {nw : Duped δ}
variable {ms : List (RadixMask w δ)} {child : Bool → Tree w δ}

def Tree.Holds (g : Group w δ) : Tree w δ → Prop
  | .leaf g' => g' = g
  | .node _ _ child => ∃ side, (child side).Holds g

def Tree.HasKey (k : BitVec w) : Tree w δ → Prop
  | .leaf g => g.key = k
  | .node _ _ child => ∃ side, (child side).HasKey k

def Tree.Rooted : Tree w δ → Prop
  | .leaf g => g.root = true
  | .node _ _ child => ∃ side, (child side).Rooted

def Topped (t : Tree w δ) : Prop :=
  ∃ ms child, t = .node 0 ms child ∧ ∀ side, (child side).Rooted

structure Group.Formed (g : Group w δ) : Prop where
  ends : g.root = true → g.key = 0 ∨ g.key = BitVec.allOnes w
  filled : g.root = false → g.chain ≠ []
  sorted : Descending Duped.len g.chain

/-- The keys under a node agree up to its bit and part there. -/
def Tree.Shaped : Tree w δ → Prop
  | .leaf g => g.Formed
  | .node n _ child => (∀ side k, (child side).HasKey k → k.getMsbD n = side) ∧
      (∀ s k s' k', (child s).HasKey k → (child s').HasKey k' → Agree n k k') ∧
      ∀ side, (child side).Shaped

structure Kept (t : Tree w δ) : Prop where
  shaped : t.Shaped
  top : Topped t

theorem holds_rnSearch (v : BitVec w) (t : Tree w δ) : t.Holds (rnSearch v t) := by
  induction t with
  | leaf g => rfl
  | node bit ms child ih => exact ⟨v.getMsbD bit, ih _⟩

theorem hasKey_rnSearch (v : BitVec w) (t : Tree w δ) : t.HasKey (rnSearch v t).key := by
  induction t with
  | leaf g => rfl
  | node bit ms child ih => exact ⟨v.getMsbD bit, ih _⟩

theorem exists_side (side : Bool) {P : Bool → Prop} : (∃ s, P s) ↔ P side ∨ P !side := by
  cases side <;> simp [Bool.exists_bool, or_comm]

theorem exists_update (side : Bool) {P : Tree w δ → Prop} :
    (∃ s, P (update child side t' s)) ↔ P t' ∨ P (child !side) := by
  rw [exists_side side, update_self, update_of_ne (by simp)]

theorem forall_side {side : Bool} {P : Bool → Prop} (hon : P side) (hoff : P !side) (s : Bool) :
    P s := by
  rcases eq_or_ne s side with rfl | hs
  · exact hon
  · exact Bool.eq_not_of_ne hs ▸ hoff

theorem forall_update {side : Bool} {P : Bool → Tree w δ → Prop} (ht : P side t')
    (hoff : P (!side) (child !side)) (s : Bool) : P s (update child side t' s) :=
  forall_side (P := fun s => P s (update child side t' s)) (by rwa [update_self])
    (by rwa [update_of_ne (by simp)]) s

section Plain

def Duped.plain (d : Duped δ) : Duped δ :=
  { d with annotated := false }

def Group.plain (g : Group w δ) : Group w δ :=
  { g with chain := g.chain.map Duped.plain }

/-- The tree without its annotations. -/
def Tree.plain : Tree w δ → Tree w δ
  | .leaf g => .leaf g.plain
  | .node n _ child => .node n [] fun side => (child side).plain

theorem plain_update (n : ℕ) (ms : List (RadixMask w δ)) (child : Bool → Tree w δ) (side : Bool)
    (t : Tree w δ) : (Tree.node n ms (update child side t)).plain =
      .node n [] (update (fun s => (child s).plain) side t.plain) := by
  rw [Tree.plain]
  congr 1
  funext s
  rcases eq_or_ne s side with rfl | hs
  · simp only [update_self]
  · simp only [update_of_ne hs]

theorem plain_update_of_eq {side : Bool} (h : t.plain = (child side).plain) :
    (Tree.node n ms (update child side t)).plain = (Tree.node n ms child).plain := by
  rw [plain_update, h, update_eq_self side fun s => (child s).plain]
  rfl

theorem rnSearch_plain (k : BitVec w) (t : Tree w δ) : rnSearch k t.plain = (rnSearch k t).plain := by
  induction t with
  | leaf g => rfl
  | node bit ms child ih => exact ih _

theorem hasKey_plain : t.plain.HasKey k ↔ t.HasKey k := by
  induction t with
  | leaf g => exact Iff.rfl
  | node bit ms child ih => simp only [Tree.plain, Tree.HasKey, ih]

theorem rooted_plain : t.plain.Rooted ↔ t.Rooted := by
  induction t with
  | leaf g => exact Iff.rfl
  | node bit ms child ih => simp only [Tree.plain, Tree.Rooted, ih]

theorem shaped_plain : t.plain.Shaped ↔ t.Shaped := by
  induction t with
  | leaf g =>
    have hnil : g.plain.chain = [] ↔ g.chain = [] := List.map_eq_nil_iff
    have hsorted : Descending Duped.len g.plain.chain ↔ Descending Duped.len g.chain :=
      List.pairwise_map
    constructor
    · rintro ⟨hends, hfilled, hdesc⟩
      exact ⟨hends, fun hroot => mt hnil.mpr (hfilled hroot), hsorted.mp hdesc⟩
    · rintro ⟨hends, hfilled, hdesc⟩
      exact ⟨hends, fun hroot => mt hnil.mp (hfilled hroot), hsorted.mpr hdesc⟩
  | node bit ms child ih => simp only [Tree.plain, Tree.Shaped, hasKey_plain, ih]

theorem hasKey_congr (h : t.plain = t'.plain) : t.HasKey k ↔ t'.HasKey k := by
  rw [← hasKey_plain, h, hasKey_plain]

theorem rooted_congr (h : t.plain = t'.plain) : t.Rooted ↔ t'.Rooted := by
  rw [← rooted_plain, h, rooted_plain]

theorem rnSearch_congr (h : t.plain = t'.plain) (k : BitVec w) :
    (rnSearch k t).plain = (rnSearch k t').plain := by
  rw [← rnSearch_plain, h, rnSearch_plain]

theorem Tree.Shaped.congr (hs : t'.Shaped) (h : t.plain = t'.plain) : t.Shaped :=
  shaped_plain.mp (h ▸ shaped_plain.mpr hs)

theorem Kept.congr (hk : Kept t') (h : t.plain = t'.plain) : Kept t := by
  refine ⟨hk.shaped.congr h, ?_⟩
  obtain ⟨ms', child', rfl, hroot⟩ := hk.top
  cases t with
  | leaf g => cases h
  | node bit ms child =>
    obtain ⟨rfl, -, hchild⟩ := Tree.node.inj h
    refine ⟨ms, child, rfl, fun side => ?_⟩
    exact (rooted_congr (congrFun hchild side)).mpr (hroot side)

theorem plain_mapChain {f : List (Duped δ) → List (Duped δ)}
    (hf : ∀ ds, (f ds).map Duped.plain = ds.map Duped.plain) : (mapChain v f t).plain = t.plain := by
  induction t with
  | leaf g => simp only [mapChain, Tree.plain, Group.plain, hf]
  | node bit ms child ih => exact plain_update_of_eq (ih _)

theorem plain_annotate (v : BitVec w) (len : ℕ) (t : Tree w δ) :
    (mapChain v (annotate len) t).plain = t.plain := by
  refine plain_mapChain fun ds => ?_
  simp only [annotate, List.map_map]
  refine List.map_congr_left fun d _ => ?_
  simp only [comp_apply]
  split <;> rfl

theorem plain_lift {m : RadixMask w δ} (h : lift v m t = some t') : t'.plain = t.plain := by
  induction t generalizing t' with
  | leaf g => cases h
  | node bit ms child ih =>
    rw [lift] at h
    split at h
    · obtain ⟨ms', -, rfl⟩ := Option.map_eq_some_iff.mp h
      rfl
    · obtain ⟨t₁, ht₁, rfl⟩ := Option.map_eq_some_iff.mp h
      exact plain_update_of_eq (ih _ ht₁)

theorem plain_unlift (h : unlift v len t = some t') : t'.plain = t.plain := by
  induction t generalizing t' with
  | leaf g =>
    cases h
    rfl
  | node bit ms child ih =>
    rw [unlift] at h
    split at h
    · split at h
      · cases h
        rfl
      · split at h <;> cases h
        rfl
    · obtain ⟨t₁, ht₁, rfl⟩ := Option.map_eq_some_iff.mp h
      exact plain_update_of_eq (ih _ ht₁)

theorem plain_annotateLeaf (l : Leaf w δ) (t : Tree w δ) : (annotateLeaf l t).plain = t.plain := by
  rw [annotateLeaf]
  split
  · rfl
  · next hlift => rw [plain_annotate, plain_lift hlift]

theorem plain_promote (b : ℕ) (t : Tree w δ) : (promote b t).2.plain = t.plain := by
  cases t with
  | leaf g =>
    simp only [promote, Tree.plain, Group.plain, List.map_map]
    rfl
  | node bit ms child => rfl

theorem map_plain_unmark {ds : List (Duped δ)} :
    (unmark v ms ds).map Duped.plain = ds.map Duped.plain := by
  induction ds generalizing ms with
  | nil => cases ms <;> rfl
  | cons d ds ih =>
    cases ms with
    | nil => rfl
    | cons m ms =>
      rw [unmark]
      split <;> rw [List.map_cons, List.map_cons, ih]
      rfl

theorem plain_demote (ms : List (RadixMask w δ)) (t : Tree w δ) : (demote ms t).plain = t.plain := by
  cases t with
  | leaf g => simp only [demote, Tree.plain, Group.plain, map_plain_unmark]
  | node bit ms' child => rfl

end Plain

section Keys

theorem Tree.Shaped.below (h : (Tree.node n ms child).Shaped) (side : Bool) : (child side).Shaped :=
  h.2.2 side

theorem Tree.Shaped.side (h : (Tree.node n ms child).Shaped) {side : Bool}
    (hk : (child side).HasKey k) : k.getMsbD n = side :=
  h.1 side k hk

theorem Tree.Shaped.agree (h : (Tree.node n ms child).Shaped) {k' : BitVec w}
    (hk : (Tree.node n ms child).HasKey k) (hk' : (Tree.node n ms child).HasKey k') : Agree n k k' := by
  obtain ⟨s, hs⟩ := hk
  obtain ⟨s', hs'⟩ := hk'
  exact h.2.1 s k s' k' hs hs'

theorem Tree.Shaped.off (h : (Tree.node n ms child).Shaped) : ¬ (child !v.getMsbD n).HasKey v := by
  intro hv
  have hside := h.side hv
  simp at hside

theorem Tree.Shaped.search (h : t.Shaped) (v : BitVec w) : (rnSearch v t).Formed := by
  induction t with
  | leaf g => exact h
  | node bit ms child ih => exact ih _ (h.below _)

theorem Tree.Shaped.rnSearch_eq (h : t.Shaped) {g : Group w δ} (hg : t.Holds g) :
    rnSearch g.key t = g := by
  induction t with
  | leaf g' => exact hg
  | node n ms child ih =>
    obtain ⟨side, hside⟩ := hg
    have hreach := ih side (h.below side) hside
    rwa [rnSearch, h.side (hreach ▸ hasKey_rnSearch g.key (child side))]

theorem Tree.Shaped.rnSearch_key (h : t.Shaped) (hk : t.HasKey k) : (rnSearch k t).key = k := by
  induction t with
  | leaf g => exact hk
  | node n ms child ih =>
    obtain ⟨side, hside⟩ := hk
    rw [rnSearch, h.side hside]
    exact ih side (h.below side) hside

theorem Tree.Shaped.keys_near (h : t.Shaped) (hne : v.getMsbD b ≠ (rnSearch v t).key.getMsbD b)
    (ht : t.testsBefore b = false) (hk : t.HasKey k) :
    k.getMsbD b = !v.getMsbD b ∧ Agree b k (rnSearch v t).key := by
  suffices hagree : Agree (b + 1) k (rnSearch v t).key by
    refine ⟨?_, hagree.mono (by omega)⟩
    rw [hagree b (by omega)]
    exact Bool.eq_not_of_ne (Ne.symm hne)
  cases t with
  | leaf g => exact hk ▸ .refl _ _
  | node n ms child =>
    have hbit : b ≤ n := by simpa [Tree.testsBefore] using ht
    have hn : b ≠ n := by
      rintro rfl
      exact hne (h.side (hasKey_rnSearch v (child (v.getMsbD b)))).symm
    exact (h.agree hk (hasKey_rnSearch v (.node n ms child))).mono (by omega)

end Keys

section Changes

theorem Tree.Shaped.replace (h : (Tree.node n ms child).Shaped) {side : Bool} (ht : t'.Shaped)
    (hkey : ∀ k, t'.HasKey k → k.getMsbD n = side ∧ ∃ k', (child side).HasKey k' ∧ Agree n k k') :
    (Tree.node n ms (update child side t')).Shaped := by
  have hnear : ∀ s k, (update child side t' s).HasKey k → ∃ s' k', (child s').HasKey k' ∧ Agree n k k' := by
    intro s k hk
    rcases (exists_update (P := Tree.HasKey k) side).mp ⟨s, hk⟩ with hk | hk
    · obtain ⟨-, k', hk', hagree⟩ := hkey k hk
      exact ⟨side, k', hk', hagree⟩
    · exact ⟨_, k, hk, .refl n k⟩
  refine ⟨fun s => ?_, fun s k s' k' hk hk' => ?_, fun s => ?_⟩
  · exact forall_update (P := fun s t => ∀ k, t.HasKey k → k.getMsbD n = s) (fun k hk => (hkey k hk).1)
      (fun k hk => h.side hk) s
  · obtain ⟨s₁, k₁, hk₁, hagree⟩ := hnear s k hk
    obtain ⟨s₂, k₂, hk₂, hagree'⟩ := hnear s' k' hk'
    exact (hagree.trans (h.2.1 _ _ _ _ hk₁ hk₂)).trans hagree'.symm
  · exact forall_update (P := fun _ t => t.Shaped) ht (h.below _) s

theorem Tree.Shaped.replace_of_same (h : (Tree.node n ms child).Shaped) {side : Bool}
    (ht : t'.Shaped) (hkey : ∀ k, t'.HasKey k → (child side).HasKey k) :
    (Tree.node n ms (update child side t')).Shaped :=
  h.replace ht fun k hk => ⟨h.side (hkey k hk), k, hkey k hk, .refl n k⟩

theorem Topped.update (h : Topped (.node n ms child)) {side : Bool}
    (ht : (child side).Rooted → t'.Rooted) : Topped (.node n ms (update child side t')) := by
  obtain ⟨_, _, heq, hroot⟩ := h
  cases heq
  exact ⟨ms, _, rfl, forall_update (P := fun _ t => t.Rooted) (ht (hroot side)) (hroot _)⟩

theorem Topped.ne_leaf (h : Topped t) (g : Group w δ) : t ≠ .leaf g := by
  rintro rfl
  obtain ⟨_, _, heq, -⟩ := h
  cases heq

variable {f : List (Duped δ) → List (Duped δ)}

theorem rnSearch_mapChain :
    rnSearch v (mapChain v f t) = { rnSearch v t with chain := f (rnSearch v t).chain } := by
  induction t with
  | leaf g => rfl
  | node bit ms child ih =>
    rw [mapChain, rnSearch, update_self, ih]
    rfl

theorem hasKey_mapChain : (mapChain v f t).HasKey k ↔ t.HasKey k := by
  induction t with
  | leaf g => exact Iff.rfl
  | node bit ms child ih =>
    rw [mapChain, Tree.HasKey, Tree.HasKey, exists_update (P := Tree.HasKey k), ih,
      exists_side (v.getMsbD bit)]

theorem rooted_mapChain : (mapChain v f t).Rooted ↔ t.Rooted := by
  induction t with
  | leaf g => exact Iff.rfl
  | node bit ms child ih =>
    rw [mapChain, Tree.Rooted, Tree.Rooted, exists_update (P := Tree.Rooted), ih,
      exists_side (v.getMsbD bit)]

theorem Tree.Shaped.mapped (h : t.Shaped)
    (hf : Group.Formed { rnSearch v t with chain := f (rnSearch v t).chain }) :
    (mapChain v f t).Shaped := by
  induction t with
  | leaf g => exact hf
  | node n ms child ih => exact h.replace_of_same (ih _ (h.below _) hf) fun k => hasKey_mapChain.mp

theorem Kept.mapped (h : Kept t)
    (hf : Group.Formed { rnSearch v t with chain := f (rnSearch v t).chain }) :
    Kept (mapChain v f t) := by
  refine ⟨h.shaped.mapped hf, ?_⟩
  cases t with
  | leaf g => exact absurd rfl (h.top.ne_leaf g)
  | node bit ms child => exact h.top.update rooted_mapChain.mpr

theorem hasKey_rnNewpair : (rnNewpair v b nw t).HasKey k ↔ k = v ∨ t.HasKey k := by
  rw [rnNewpair, Tree.HasKey, exists_side (v.getMsbD b)]
  simp [hasKey_congr (plain_promote b t), Tree.HasKey, eq_comm]

theorem Tree.Shaped.newpair (h : t.Shaped) (hagree : Agree b v (rnSearch v t).key)
    (hne : v.getMsbD b ≠ (rnSearch v t).key.getMsbD b) (ht : t.testsBefore b = false) :
    (rnNewpair v b nw t).Shaped := by
  have hv : ∀ k, (rnNewpair v b nw t).HasKey k → Agree b k v := by
    intro k hk
    rcases hasKey_rnNewpair.mp hk with rfl | hk
    · exact .refl _ _
    · exact (h.keys_near hne ht hk).2.trans hagree.symm
  refine ⟨fun side k hk => ?_, fun s k s' k' hk hk' => (hv k ⟨s, hk⟩).trans (hv k' ⟨s', hk'⟩).symm,
    fun side => ?_⟩
  · dsimp only at hk
    split at hk
    · next hside => exact (congrArg (BitVec.getMsbD · b) hk).symm.trans hside.symm
    · next hside =>
      rw [(h.keys_near hne ht ((hasKey_congr (plain_promote b t)).mp hk)).1, Bool.eq_not_of_ne hside]
  · dsimp only
    split
    · exact ⟨nofun, fun _ => List.cons_ne_nil _ _, List.pairwise_singleton _ nw⟩
    · exact h.congr (plain_promote b t)

theorem hasKey_rnInsert (hk : (rnInsert v b nw t).HasKey k) : k = v ∨ t.HasKey k := by
  induction t with
  | leaf g => exact .inr hk
  | node n ms child ih =>
    rw [rnInsert, Tree.HasKey, exists_update (P := Tree.HasKey k)] at hk
    rw [Tree.HasKey, exists_side (v.getMsbD n), ← or_assoc]
    refine hk.imp_left fun hk => ?_
    split at hk
    · exact ih _ hk
    · exact hasKey_rnNewpair.mp hk

theorem Tree.Shaped.inserted (h : t.Shaped) (hagree : Agree b v (rnSearch v t).key)
    (hne : v.getMsbD b ≠ (rnSearch v t).key.getMsbD b) (ht : t.testsBefore b = true) :
    (rnInsert v b nw t).Shaped := by
  induction t with
  | leaf g => exact h
  | node n ms child ih =>
    have hn : n < b := by simpa [Tree.testsBefore] using ht
    refine h.replace ?_ fun k hk => ?_
    · split
      · next hc => exact ih _ (h.below _) hagree hne hc
      · next hc => exact (h.below _).newpair hagree hne (Bool.eq_false_iff.mpr hc)
    · have hcases : k = v ∨ (child (v.getMsbD n)).HasKey k := by
        split at hk
        · exact hasKey_rnInsert hk
        · exact hasKey_rnNewpair.mp hk
      rcases hcases with rfl | hk
      · exact ⟨rfl, _, hasKey_rnSearch _ _, hagree.mono hn.le⟩
      · exact ⟨h.side hk, k, hk, .refl _ _⟩

theorem rooted_rnNewpair (h : t.Rooted) : (rnNewpair v b nw t).Rooted := by
  have hother : (promote b t).2.Rooted := (rooted_congr (plain_promote b t)).mpr h
  exact ⟨!v.getMsbD b, by simpa using hother⟩

theorem rooted_rnInsert (h : t.Rooted) : (rnInsert v b nw t).Rooted := by
  induction t with
  | leaf g => exact h
  | node n ms child ih =>
    rw [rnInsert, Tree.Rooted, exists_update (P := Tree.Rooted)]
    refine ((exists_side (v.getMsbD n)).mp h).imp_left fun hon => ?_
    split
    · exact ih _ hon
    · exact rooted_rnNewpair hon

theorem Topped.inserted (h : Topped t) : Topped (rnInsert v b nw t) := by
  cases t with
  | leaf g => exact absurd rfl (h.ne_leaf g)
  | node n ms child =>
    refine h.update fun hroot => ?_
    split
    · exact rooted_rnInsert hroot
    · exact rooted_rnNewpair hroot

theorem dropLeaf_parent {g : Group w δ} (hc : child (v.getMsbD n) = .leaf g) :
    dropLeaf v (.node n ms child) = demote ms (child !v.getMsbD n) := by
  simp only [dropLeaf, hc]

theorem dropLeaf_below (hc : ∀ g, child (v.getMsbD n) ≠ .leaf g) :
    dropLeaf v (.node n ms child) =
      .node n ms (update child (v.getMsbD n) (dropLeaf v (child (v.getMsbD n)))) := by
  rw [dropLeaf]
  split
  · exact absurd ‹_› (hc _)
  · rfl

theorem hasKey_dropLeaf (hk : (dropLeaf v t).HasKey k) : t.HasKey k := by
  induction t with
  | leaf g => exact hk
  | node n ms child ih =>
    rw [dropLeaf] at hk
    split at hk
    · exact ⟨_, (hasKey_congr (plain_demote _ _)).mp hk⟩
    · rw [Tree.HasKey, exists_update (P := Tree.HasKey k)] at hk
      rw [Tree.HasKey, exists_side (v.getMsbD n)]
      exact hk.imp_left (ih _)

theorem Tree.Shaped.dropped (h : t.Shaped) : (dropLeaf v t).Shaped := by
  induction t with
  | leaf g => exact h
  | node n ms child ih =>
    rw [dropLeaf]
    split
    · exact (h.below _).congr (plain_demote _ _)
    · exact h.replace_of_same (ih _ (h.below _)) fun k => hasKey_dropLeaf

theorem rooted_dropLeaf (h : t.Rooted) (hroot : (rnSearch v t).root = false) :
    (dropLeaf v t).Rooted := by
  induction t with
  | leaf g => exact h
  | node n ms child ih =>
    have hside := (exists_side (v.getMsbD n)).mp h
    cases hc : child (v.getMsbD n) with
    | leaf g =>
      rw [rnSearch, hc] at hroot
      rw [hc] at hside
      rw [dropLeaf_parent hc, rooted_congr (plain_demote _ _)]
      exact hside.resolve_left fun hg => Bool.false_ne_true (hroot.symm.trans hg)
    | node n' ms' child' =>
      rw [dropLeaf_below (by simp [hc]), Tree.Rooted, exists_update (P := Tree.Rooted)]
      exact hside.imp_left fun hon => ih _ hon hroot

theorem Topped.dropped (h : Topped t) (hroot : (rnSearch v t).root = false) :
    Topped (dropLeaf v t) := by
  obtain ⟨ms, child, rfl, hsides⟩ := h
  have htop : Topped (.node 0 ms child) := ⟨ms, child, rfl, hsides⟩
  cases hc : child (v.getMsbD 0) with
  | leaf g =>
    have hg := hsides (v.getMsbD 0)
    rw [rnSearch, hc] at hroot
    rw [hc] at hg
    exact absurd (hroot.symm.trans hg) Bool.false_ne_true
  | node n' ms' child' =>
    rw [dropLeaf_below (by simp [hc])]
    exact htop.update fun hon => rooted_dropLeaf hon hroot

end Changes

end Aware.Radix
