import Aware.Lib.PrefixMap
import Aware.Radix.Shape

/-!
# The entries of a tree

What the tree has for a key and a mask, whatever bits the key has outside the mask. Annotations
do not matter for that; with keys of any kind they can be missing, and then a deletion is refused.
-/
namespace Aware.Radix
open Function Aware.BitStrings

variable {w : ℕ} {δ : Type} {t t' : Tree w δ} {v k : BitVec w} {len n b : ℕ} {data : δ}
variable {ms : List (RadixMask w δ)} {child : Bool → Tree w δ} {l : Leaf w δ}

def Group.Has (g : Group w δ) (l : Leaf w δ) : Prop :=
  ∃ d ∈ g.chain, g.leaf d = l

def Tree.Has (t : Tree w δ) (l : Leaf w δ) : Prop :=
  ∃ g, t.Holds g ∧ g.Has l

def Group.entry (g : Group w δ) (k : BitVec w) (n : ℕ) : Option δ :=
  if g.key = k then (g.chain.find? fun d => d.len == n).map Duped.data else none

def Tree.entry (t : Tree w δ) : PrefixMap w δ :=
  fun k n => (rnSearch k t).entry k n

/-- The chain that a search for `v` ends at is that of `v`, and has a leaf of this mask. -/
def Tree.Taken (v : BitVec w) (len : ℕ) (t : Tree w δ) : Prop :=
  (rnSearch v t).key = v ∧ ∃ d ∈ (rnSearch v t).chain, d.len = len

instance (v : BitVec w) (len : ℕ) (t : Tree w δ) : Decidable (t.Taken v len) :=
  inferInstanceAs (Decidable (_ ∧ _))

section Entry

theorem Group.entry_plain (g : Group w δ) : g.plain.entry k n = g.entry k n := by
  simp only [Group.entry, Group.plain, List.find?_map, Option.map_map]
  rfl

theorem entry_congr (h : t.plain = t'.plain) (k : BitVec w) (n : ℕ) : t.entry k n = t'.entry k n := by
  rw [Tree.entry, ← Group.entry_plain, rnSearch_congr h, Group.entry_plain, Tree.entry]

theorem entry_update (n : ℕ) (ms ms' : List (RadixMask w δ)) (child : Bool → Tree w δ) (side : Bool)
    (t : Tree w δ) (k : BitVec w) (m : ℕ) :
    (Tree.node n ms (update child side t)).entry k m =
      if k.getMsbD n = side then t.entry k m else (Tree.node n ms' child).entry k m := by
  simp only [Tree.entry, rnSearch]
  split
  · next hside => rw [hside, update_self]
  · next hside => rw [update_of_ne hside]

theorem entry_eq_none (h : ¬ t.HasKey k) (n : ℕ) : t.entry k n = none :=
  if_neg fun (hkey : (rnSearch k t).key = k) => h (hkey ▸ hasKey_rnSearch k t)

theorem hasKey_of_entry (h : t.entry k n = some data) : t.HasKey k := by
  by_contra hk
  rw [entry_eq_none hk] at h
  cases h

theorem Tree.Shaped.entry_eq_some_iff (h : t.Shaped) {d : δ} :
    t.entry k n = some d ↔
      (rnSearch k t).key = k ∧ ∃ x ∈ (rnSearch k t).chain, x.len = n ∧ x.data = d := by
  rw [Tree.entry, Group.entry]
  split
  · next hkey =>
      simp only [hkey, true_and, Option.map_eq_some_iff, (h.search k).sorted.find?_eq_some_iff, and_assoc]
  · next hkey => simp [hkey]

theorem Tree.Shaped.entry_of_mem (h : t.Shaped) (hkey : (rnSearch v t).key = k) {d : Duped δ}
    (hd : d ∈ (rnSearch v t).chain) : t.entry k d.len = some d.data := by
  subst hkey
  rw [h.entry_eq_some_iff, h.rnSearch_eq (holds_rnSearch v t)]
  exact ⟨rfl, d, hd, rfl, rfl⟩

theorem Tree.Shaped.has_iff_entry (h : t.Shaped) : t.Has l ↔ t.entry l.key l.len = some l.data := by
  constructor
  · rintro ⟨g, hg, x, hx, rfl⟩
    have hreach := h.rnSearch_eq hg
    have hmem : x ∈ (rnSearch g.key t).chain := hreach.symm ▸ hx
    exact h.entry_of_mem (congrArg Group.key hreach) hmem
  · intro hl
    obtain ⟨hkey, x, hx, hlen, hdata⟩ := h.entry_eq_some_iff.mp hl
    refine ⟨_, holds_rnSearch l.key t, x, hx, ?_⟩
    rw [Group.leaf, hkey, hlen, hdata]

theorem Tree.Shaped.entry_eq_none_iff (h : t.Shaped) : t.entry k n = none ↔ ¬ t.Taken k n := by
  rw [Option.eq_none_iff_forall_ne_some]
  simp only [ne_eq, h.entry_eq_some_iff, Tree.Taken]
  grind

theorem entry_mapChain (hkey : (rnSearch v t).key = v) (f : List (Duped δ) → List (Duped δ))
    (k : BitVec w) (n : ℕ) : (mapChain v f t).entry k n = if k = v then
      ((f (rnSearch v t).chain).find? fun d => d.len == n).map Duped.data else t.entry k n := by
  split
  · next hk =>
      subst hk
      rw [Tree.entry, rnSearch_mapChain, Group.entry, if_pos hkey]
  · next hk =>
      induction t with
      | leaf g =>
        have hne : g.key ≠ k := fun heq => hk (heq.symm.trans hkey)
        simp only [mapChain, Tree.entry, rnSearch, Group.entry, hne, if_false]
      | node bit ms child ih =>
        rw [mapChain, entry_update bit ms ms]
        split
        · next hside =>
            rw [ih _ hkey]
            simp only [Tree.entry, rnSearch, hside]
        · rfl

theorem Tree.Shaped.entry_newpair (h : t.Shaped) {nw : Duped δ}
    (hne : v.getMsbD b ≠ (rnSearch v t).key.getMsbD b) (ht : t.testsBefore b = false) :
    (rnNewpair v b nw t).entry k n =
      if k = v ∧ n = nw.len then some nw.data else t.entry k n := by
  rw [Tree.entry, rnNewpair, rnSearch]
  split
  · next hside =>
      have hnot : ¬ t.HasKey k := by
        intro hhas
        have hbit := (h.keys_near hne ht hhas).1
        simp [hside] at hbit
      rw [entry_eq_none hnot]
      rcases eq_or_ne k v with rfl | hk
      · by_cases hn : n = nw.len
        · simp [rnSearch, Group.entry, hn]
        · simp [rnSearch, Group.entry, hn, Ne.symm hn]
      · simp [rnSearch, Group.entry, hk, Ne.symm hk]
  · next hside =>
      rw [if_neg fun hand : k = v ∧ _ => hside (hand.1 ▸ rfl)]
      exact entry_congr (plain_promote b t) k n

theorem Tree.Shaped.entry_rnInsert (h : t.Shaped) {nw : Duped δ}
    (hne : v.getMsbD b ≠ (rnSearch v t).key.getMsbD b) (ht : t.testsBefore b = true) :
    (rnInsert v b nw t).entry k n =
      if k = v ∧ n = nw.len then some nw.data else t.entry k n := by
  induction t with
  | leaf g => cases ht
  | node bit ms child ih =>
    rw [rnInsert, entry_update bit ms ms]
    split
    · next hside =>
        have hchild : (Tree.node bit ms child).entry k n = (child (v.getMsbD bit)).entry k n := by
          rw [← hside]
          rfl
        rw [hchild]
        split
        · next hc => exact ih _ (h.below _) hne hc
        · next hc => exact (h.below _).entry_newpair hne (Bool.eq_false_iff.mpr hc)
    · next hside => rw [if_neg fun hand : k = v ∧ _ => hside (hand.1 ▸ rfl)]

theorem rnSearch_rnInsert {nw : Duped δ} (ht : t.testsBefore b = true) :
    rnSearch v (rnInsert v b nw t) = ⟨v, false, [nw]⟩ := by
  induction t with
  | leaf g => cases ht
  | node n ms child ih =>
    simp only [rnInsert, rnSearch, update_self]
    split
    · exact ih _ ‹_›
    · simp [rnNewpair, rnSearch]

theorem Tree.Shaped.entry_dropLeaf (h : t.Shaped) (ht : ∀ g, t ≠ .leaf g)
    (hkey : (rnSearch v t).key = v) :
    (dropLeaf v t).entry k n = if k = v then none else t.entry k n := by
  induction t with
  | leaf g => exact absurd rfl (ht g)
  | node bit ms child ih =>
    cases hc : child (v.getMsbD bit) with
    | leaf g =>
      have hg : g.key = v := by
        rw [rnSearch, hc] at hkey
        exact hkey
      rw [dropLeaf_parent hc, entry_congr (plain_demote _ _)]
      by_cases hside : k.getMsbD bit = v.getMsbD bit
      · rw [entry_eq_none (hside ▸ h.off)]
        split
        · rfl
        · next hk =>
            rw [Tree.entry, rnSearch, hside, hc]
            exact (if_neg fun heq => hk (heq.symm.trans hg)).symm
      · rw [if_neg fun heq : k = v => hside (heq ▸ rfl), Tree.entry, Tree.entry, rnSearch,
          Bool.eq_not_of_ne hside]
    | node n' ms' child' =>
      have hbelow : ∀ g, child (v.getMsbD bit) ≠ .leaf g := by simp [hc]
      rw [dropLeaf_below hbelow, entry_update bit ms ms]
      split
      · next hside =>
          rw [ih _ (h.below _) hbelow hkey]
          simp only [Tree.entry, rnSearch, hside]
      · next hside => rw [if_neg fun heq : k = v => hside (heq ▸ rfl)]

theorem Tree.Shaped.entry_dropLeaf_only (h : t.Shaped) (ht : ∀ g, t ≠ .leaf g)
    (hkey : (rnSearch v t).key = v) (honly : ∀ d ∈ (rnSearch v t).chain, d.len = len) :
    (dropLeaf v t).entry k n = if k = v ∧ n = len then none else t.entry k n := by
  rw [h.entry_dropLeaf ht hkey]
  rcases eq_or_ne k v with rfl | hkv
  · by_cases hn : n = len
    · simp [hn]
    · simp only [hn, and_false, if_true, if_false]
      rw [eq_comm, h.entry_eq_none_iff]
      rintro ⟨-, d, hd, rfl⟩
      exact hn (honly d hd)
  · simp [hkv]

end Entry

section Insert

/-- How `rn_addroute` links a new leaf, before it annotates it. -/
inductive Linked (v : BitVec w) (len : ℕ) (data : δ) (t : Tree w δ) : Tree w δ → Prop
  | duped {ds : List (Duped δ)} (key : (rnSearch v t).key = v)
      (new : ∀ d ∈ (rnSearch v t).chain, d.len ≠ len) (sorted : Descending Duped.len ds)
      (mem : ∀ d, d ∈ ds ↔ d = ⟨len, data, false⟩ ∨ d ∈ (rnSearch v t).chain) :
      Linked v len data t (mapChain v (fun _ => ds) t)
  | paired {b : ℕ} (agree : Agree b v (rnSearch v t).key)
      (parts : v.getMsbD b ≠ (rnSearch v t).key.getMsbD b) (before : t.testsBefore b = true) :
      Linked v len data t (rnInsert v b ⟨len, data, false⟩ t)

theorem Kept.rnAddroute_cases (h : Kept t) (v : BitVec w) (len : ℕ) (data : δ) :
    t.Taken v len ∧ rnAddroute v len data t = none ∨
      ¬ t.Taken v len ∧ ∃ t₁, Linked v len data t t₁ ∧
        rnAddroute v len data t = some (annotateLeaf ⟨v, len, data⟩ t₁) := by
  simp only [Radix.rnAddroute]
  cases hdiff : firstDiff w v (rnSearch v t).key with
  | none =>
    have hkey : (rnSearch v t).key = v := ((firstDiff_eq_none_iff.mp hdiff).eq le_rfl).symm
    by_cases hd : ∃ d ∈ (rnSearch v t).chain, d.len = len
    · obtain ⟨d, hmem, hlen⟩ := hd
      have hnone : addDuped ⟨len, data, false⟩ (rnSearch v t).chain = none :=
        (h.shaped.search v).sorted.place_eq_none hmem hlen fun _ => rfl
      exact .inl ⟨⟨hkey, d, hmem, hlen⟩, by simp only [hnone, Option.map_none]⟩
    · have hnew : ∀ d ∈ (rnSearch v t).chain, d.len ≠ len := fun d hmem hlen => hd ⟨d, hmem, hlen⟩
      obtain ⟨ds, hds, hdesc, hmem⟩ := (h.shaped.search v).sorted.place_eq_some
        (a := (⟨len, data, false⟩ : Duped δ)) (fun _ => none) hnew
      have hsome : addDuped ⟨len, data, false⟩ (rnSearch v t).chain = some ds := hds
      exact .inr ⟨fun htaken => hd htaken.2, _, .duped hkey hnew hdesc hmem,
        by simp only [hsome, Option.map_some]⟩
  | some b =>
    obtain ⟨-, hagree, hne⟩ := firstDiff_eq_some hdiff
    have hbefore : t.testsBefore b = true := by
      obtain ⟨ms, child, rfl, -⟩ := h.top
      have hside := h.shaped.side (hasKey_rnSearch v (child (v.getMsbD 0)))
      have : b ≠ 0 := by
        rintro rfl
        exact hne hside.symm
      simp only [Tree.testsBefore, decide_eq_true_eq]
      omega
    exact .inr ⟨fun htaken => hne (by rw [htaken.1]), _, .paired hagree hne hbefore, rfl⟩

theorem Linked.kept (h : Linked v len data t t') (hk : Kept t) : Kept t' := by
  cases h with
  | duped key new sorted mem =>
    refine hk.mapped ⟨(hk.shaped.search v).ends, fun _ => ?_, sorted⟩
    exact List.ne_nil_of_mem ((mem _).mpr (.inl rfl))
  | paired agree parts before =>
    exact ⟨hk.shaped.inserted agree parts before, hk.top.inserted⟩

theorem Linked.search (h : Linked v len data t t') : (rnSearch v t').key = v ∧
    (⟨len, data, false⟩ : Duped δ) ∈ (rnSearch v t').chain ∧
      ∀ d ∈ (rnSearch v t').chain, d.len = len → d.annotated = false := by
  cases h with
  | duped key new sorted mem =>
    rw [rnSearch_mapChain]
    refine ⟨key, (mem _).mpr (.inl rfl), fun d hd hlen => ?_⟩
    rcases (mem d).mp hd with rfl | hd
    · rfl
    · exact absurd hlen (new d hd)
  | paired agree parts before =>
    rw [rnSearch_rnInsert before]
    simp

theorem Linked.entry (h : Linked v len data t t') (hs : t.Shaped) (k : BitVec w) (n : ℕ) :
    t'.entry k n = if k = v ∧ n = len then some data else t.entry k n := by
  cases h with
  | duped key new sorted mem =>
    rw [entry_mapChain key, (hs.search v).sorted.find?_of_placed sorted mem]
    rcases eq_or_ne k v with rfl | hk
    · by_cases hn : n = len
      · simp [hn]
      · simp [hn, Tree.entry, Group.entry, key]
    · simp [hk]
  | paired agree parts before => exact hs.entry_rnInsert parts before

end Insert

section Delete

/-- If the leaf is annotated, it is at the highest node above it whose bit is not before the
length of its mask. -/
def Tree.Noted (v : BitVec w) (len : ℕ) : Tree w δ → Prop
  | .leaf _ => True
  | .node bit ms child =>
    if len ≤ bit then normal len = true → ∃ m ∈ ms, m.isOf v len = true
    else (child (v.getMsbD bit)).Noted v len

def Tree.Removable (t : Tree w δ) (v : BitVec w) (len : ℕ) : Prop :=
  (rnSearch v t).key = v ∧ ∃ d ∈ (rnSearch v t).chain, d.len = len ∧
    (d.annotated = true → t.Noted v len)

theorem removeMask_isSome_iff : (removeMask v len ms).isSome ↔ ∃ m ∈ ms, m.isOf v len = true := by
  induction ms with
  | nil => simp [removeMask]
  | cons m ms ih =>
    rw [removeMask]
    split
    · next hof =>
        refine iff_of_true ?_ ⟨m, by simp, hof⟩
        split <;> rfl
    · next hof => simp [ih, hof]

theorem unlift_isSome_iff : (unlift v len t).isSome ↔ t.Noted v len := by
  induction t with
  | leaf g => exact iff_of_true rfl trivial
  | node bit ms child ih =>
    rw [unlift, Tree.Noted]
    split
    · rw [← removeMask_isSome_iff]
      cases removeMask v len ms <;> cases normal len <;> simp
    · rw [Option.isSome_map, ih]

theorem Tree.Shaped.rnDelete_isSome_iff (h : t.Shaped) (v : BitVec w) (len : ℕ) :
    (Radix.rnDelete v len t).isSome ↔ t.Removable v len := by
  simp only [Radix.rnDelete, Tree.Removable]
  split
  · next hkey =>
      simp only [hkey, true_and]
      cases hf : (rnSearch v t).chain.find? fun d => d.len == len with
      | none =>
        refine iff_of_false Bool.false_ne_true ?_
        rintro ⟨d, hd, hlen, -⟩
        exact List.find?_eq_none.mp hf d hd (beq_iff_eq.mpr hlen)
      | some d =>
        obtain ⟨hd, hlen⟩ := (h.search v).sorted.find?_eq_some_iff.mp hf
        rw [Option.isSome_map]
        constructor
        · intro hsome
          refine ⟨d, hd, hlen, fun hann => ?_⟩
          rw [hann, if_pos rfl] at hsome
          exact unlift_isSome_iff.mp hsome
        · rintro ⟨d', hd', hlen', hnoted⟩
          obtain rfl := (h.search v).sorted.unique hd hd' (hlen.trans hlen'.symm)
          split
          · next hann => exact unlift_isSome_iff.mpr (hnoted hann)
          · rfl
  · next hkey => simp [hkey]

inductive Unlinked (v : BitVec w) (len : ℕ) (t : Tree w δ) : Tree w δ → Prop
  | erased (left : (rnSearch v t).root = true ∨ ∃ d ∈ (rnSearch v t).chain, d.len ≠ len) :
      Unlinked v len t (mapChain v (fun ds => ds.eraseP fun d => d.len == len) t)
  | dropped (root : (rnSearch v t).root = false) (only : ∀ d ∈ (rnSearch v t).chain, d.len = len) :
      Unlinked v len t (dropLeaf v t)

theorem Tree.Shaped.rnDelete_eq_some (h : t.Shaped) (ht : rnDelete v len t = some (l, t')) :
    (rnSearch v t).key = v ∧ ∃ d ∈ (rnSearch v t).chain, d.len = len ∧ l = ⟨v, len, d.data⟩ ∧
      ∃ t₁, (if d.annotated then unlift v len t else some t) = some t₁ ∧ t₁.plain = t.plain ∧
        Unlinked v len t₁ t' := by
  simp only [Radix.rnDelete] at ht
  split at ht
  · next hkey =>
      split at ht
      · cases ht
      · next d hf =>
          obtain ⟨t₁, ht₁, heq⟩ := Option.map_eq_some_iff.mp ht
          obtain ⟨hd, hlen⟩ := (h.search v).sorted.find?_eq_some_iff.mp hf
          have hplain : t₁.plain = t.plain := by
            split at ht₁
            · exact plain_unlift ht₁
            · cases ht₁
              rfl
          obtain ⟨rfl, rfl⟩ := Prod.mk.inj heq
          refine ⟨hkey, d, hd, hlen, by rw [Group.leaf, hkey, hlen], t₁, ht₁, hplain, ?_⟩
          have hsearch := rnSearch_congr hplain v
          have hroot : (rnSearch v t₁).root = (rnSearch v t).root :=
            congrArg (fun g => g.root) hsearch
          have hlens : ∀ i, (∃ d ∈ (rnSearch v t₁).chain, d.len = i) ↔
              ∃ d ∈ (rnSearch v t).chain, d.len = i := by
            intro i
            have hmem := congrArg (fun g => i ∈ g.chain.map Duped.len) hsearch
            simpa only [Group.plain, List.map_map, List.mem_map, eq_iff_iff, comp_apply, Duped.plain] using hmem
          split
          · next hleft =>
              simp only [Bool.or_eq_true, decide_eq_true_eq] at hleft
              refine .erased (hleft.imp hroot.trans fun hmore => ?_)
              obtain ⟨d', hd', hne⟩ := (h.search v).sorted.exists_ne hmore (n := len)
              obtain ⟨d₁, hd₁, hlen₁⟩ := (hlens d'.len).mpr ⟨d', hd', rfl⟩
              exact ⟨d₁, hd₁, hlen₁.trans_ne hne⟩
          · next hleft =>
              simp only [Bool.or_eq_true, decide_eq_true_eq, not_or, Bool.not_eq_true, not_lt] at hleft
              refine .dropped (hroot.trans hleft.1) fun d₁ hd₁ => ?_
              obtain ⟨d', hd', hlen'⟩ := (hlens d₁.len).mp ⟨d₁, hd₁, rfl⟩
              obtain ⟨a, ha⟩ := List.length_eq_one_iff.mp
                (Nat.le_antisymm hleft.2 (List.length_pos_of_mem hd))
              rw [ha] at hd hd'
              rw [← hlen', List.mem_singleton.mp hd', ← List.mem_singleton.mp hd, hlen]
  · cases ht

theorem Unlinked.kept (h : Unlinked v len t t') (hk : Kept t) : Kept t' := by
  cases h with
  | erased left =>
    have hformed := hk.shaped.search v
    refine hk.mapped ⟨hformed.ends, fun hroot => ?_, hformed.sorted.sublist List.eraseP_sublist⟩
    obtain ⟨d, hd⟩ := left.resolve_left (Bool.eq_false_iff.mp hroot)
    exact List.ne_nil_of_mem (hformed.sorted.mem_eraseP.mpr hd)
  | dropped root only => exact ⟨hk.shaped.dropped, hk.top.dropped root⟩

theorem Unlinked.entry (h : Unlinked v len t t') (hk : Kept t) (hkey : (rnSearch v t).key = v)
    (k : BitVec w) (n : ℕ) : t'.entry k n = if k = v ∧ n = len then none else t.entry k n := by
  cases h with
  | erased left =>
    rw [entry_mapChain hkey, (hk.shaped.search v).sorted.find?_eraseP]
    rcases eq_or_ne k v with rfl | hk
    · by_cases hn : n = len
      · simp [hn]
      · simp [hn, Tree.entry, Group.entry, hkey]
    · simp [hk]
  | dropped root only => exact hk.shaped.entry_dropLeaf_only hk.top.ne_leaf hkey only

theorem Kept.rnDelete (h : Kept t) (ht : rnDelete v len t = some (l, t')) :
    Kept t' ∧ t.entry v len = some l.data ∧
      ∀ k n, t'.entry k n = if k = v ∧ n = len then none else t.entry k n := by
  obtain ⟨hkey, d, hd, rfl, rfl, t₁, -, hplain, hunlinked⟩ := h.shaped.rnDelete_eq_some ht
  have hkept := h.congr hplain
  refine ⟨hunlinked.kept hkept, h.shaped.entry_of_mem hkey hd, fun k n => ?_⟩
  rw [hunlinked.entry hkept ((congrArg Group.key (rnSearch_congr hplain v)).trans hkey),
    entry_congr hplain]

end Delete

section Undo

theorem noted_lift (h : lift v ⟨⟨v, len, data⟩, 0⟩ t = some t') : t'.Noted v len := by
  induction t generalizing t' with
  | leaf g => cases h
  | node bit ms child ih =>
    rw [lift] at h
    split at h
    · next hle =>
        obtain ⟨ms', hms', rfl⟩ := Option.map_eq_some_iff.mp h
        refine (if_pos hle).mpr ?_
        intro hnormal
        refine ⟨_, mem_of_place _ (fun b => if_pos hnormal) hms', ?_⟩
        simp [RadixMask.isOf, RadixMask.len]
    · next hle =>
        obtain ⟨t₁, ht₁, rfl⟩ := Option.map_eq_some_iff.mp h
        refine (if_neg hle).mpr ?_
        rw [update_self]
        exact ih _ ht₁

theorem noted_mapChain {f : List (Duped δ) → List (Duped δ)} :
    (mapChain v f t).Noted v len ↔ t.Noted v len := by
  induction t with
  | leaf g => exact Iff.rfl
  | node bit ms child ih =>
    rw [mapChain, Tree.Noted, Tree.Noted, update_self, ih]

theorem Linked.removable (h : Linked v len data t t') :
    (annotateLeaf ⟨v, len, data⟩ t').Removable v len := by
  obtain ⟨hkey, hmem, -⟩ := h.search
  rw [annotateLeaf]
  cases hlift : lift v ⟨⟨v, len, data⟩, 0⟩ t' with
  | none => exact ⟨hkey, _, hmem, rfl, fun hbad => absurd hbad Bool.false_ne_true⟩
  | some t₁ =>
    have hsearch := rnSearch_congr (plain_lift hlift) v
    have hplain : (⟨len, data, false⟩ : Duped δ) ∈ (rnSearch v t₁).plain.chain := by
      rw [hsearch]
      exact List.mem_map.mpr ⟨_, hmem, rfl⟩
    obtain ⟨d, hd, heq⟩ := List.mem_map.mp hplain
    have hlen : d.len = len := congrArg Duped.len heq
    refine ⟨?_, { d with annotated := true }, ?_, hlen, fun _ => noted_mapChain.mpr (noted_lift hlift)⟩
    · rw [rnSearch_mapChain]
      exact (congrArg Group.key hsearch).trans hkey
    · rw [rnSearch_mapChain]
      exact List.mem_map.mpr ⟨d, hd, if_pos hlen⟩

theorem Kept.rnAddroute_eq_none_iff (h : Kept t) : rnAddroute v len data t = none ↔ t.Taken v len := by
  rcases h.rnAddroute_cases v len data with ⟨htaken, hnone⟩ | ⟨hfree, t₁, -, hsome⟩
  · exact iff_of_true hnone htaken
  · exact iff_of_false (by simp [hsome]) hfree

theorem Kept.rnAddroute (h : Kept t) (ht : rnAddroute v len data t = some t') :
    Kept t' ∧ ¬ t.Taken v len ∧ t'.Removable v len ∧
      ∀ k n, t'.entry k n = if k = v ∧ n = len then some data else t.entry k n := by
  rcases h.rnAddroute_cases v len data with ⟨-, hnone⟩ | ⟨hfree, t₁, hlinked, hsome⟩
  · rw [hnone] at ht
    cases ht
  · rw [hsome] at ht
    cases ht
    have hplain := plain_annotateLeaf ⟨v, len, data⟩ t₁
    refine ⟨(hlinked.kept h).congr hplain, hfree, hlinked.removable, fun k n => ?_⟩
    rw [entry_congr hplain, hlinked.entry h.shaped]

end Undo

section Lookup

theorem compared_self (t : Tree w δ) (hkey : (rnSearch v t).key = v) :
    rnMatch v t = (rnSearch v t).chain.head?.map (rnSearch v t).leaf := by
  have hdiff : firstDiff (rnSearch v t).compared v (rnSearch v t).key = none :=
    firstDiff_eq_none_iff.mpr (hkey.symm ▸ .refl _ _)
  simp only [Radix.rnMatch, hdiff]

theorem rnLookup_of_entry (h : t.entry v len = some data) :
    rnLookup v len t = some ⟨v, len, data⟩ := by
  rw [Tree.entry, Group.entry] at h
  split at h
  · next hkey =>
      obtain ⟨x, hx, rfl⟩ := Option.map_eq_some_iff.mp h
      have hlen : x.len = len := by simpa using List.find?_some hx
      obtain ⟨y, ds, hchain⟩ := List.exists_cons_of_ne_nil
        (List.ne_nil_of_mem (List.mem_of_find?_eq_some hx))
      have hdrop : dupedFrom t ((rnSearch v t).leaf y) = (rnSearch v t).chain := by
        simp [dupedFrom, Group.leaf, hkey, hchain]
      simp only [rnLookup, compared_self t hkey, hchain, List.head?_cons, Option.map_some]
      rw [hdrop, hx, Option.map_some, hlen]
      simp [Group.leaf, hkey]
  · cases h

/-- What `rn_lookup` finds is an entry, if not always of that key. -/
theorem Kept.entry_of_rnLookup (h : Kept t) (hl : rnLookup v len t = some l) :
    ∃ k, t.entry k len = some l.data := by
  simp only [rnLookup] at hl
  split at hl
  · cases hl
  · next l₀ hmatch =>
      obtain ⟨x, hx, rfl⟩ := Option.map_eq_some_iff.mp hl
      have hlen : x.len = len := by simpa using List.find?_some hx
      have hmem := (List.dropWhile_sublist _).subset (List.mem_of_find?_eq_some hx)
      exact ⟨_, hlen ▸ h.shaped.entry_of_mem rfl hmem⟩

end Lookup

end Aware.Radix
