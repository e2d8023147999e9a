import Aware.Radix.Invariant

/-!
# Insertion

A new leaf is linked first and annotated afterwards, so between the two it is the exception of
the invariant. Annotations of longer masks stay below a new node, the others move up to it.
-/
namespace Aware.Radix
open Function Aware.BitStrings

variable {w : ℕ} {δ : Type} {lo b len : ℕ} {data : δ} {t t' : Tree w δ} {g : Group w δ} {v : BitVec w}

theorem Wf.marked (h : Wf (some (v, len)) lo t) (hs : t.Shaped) (hkey : (rnSearch v t).key = v)
    (hlt : len < lo) : Wf none lo (mapChain v (annotate len) t) := by
  refine h.mapped hs (fun lo' hlo' hann => ?_) (fun _ _ hk => (Wf.toggle hk).mpr) fun k n hn => ?_
  · refine List.forall_mem_map.mpr fun d hd _ => ?_
    split
    · next hlen => simp only [hlen, hlt.trans_le hlo']
    · next hlen => exact hann d hd (by simpa [hkey] using Ne.symm hlen)
  · rw [except_of_len_ne (by omega), except_none, entry_congr (plain_annotate v len t)]

theorem Wf.lifted (h : Wf (some (v, len)) lo t) (ht : t.Neat) (hlo : lo ≤ len)
    (hv : t.entry v len = some data)
    (hflag : ∀ d ∈ (rnSearch v t).chain, d.len = len → d.annotated = false) :
    match lift v ⟨⟨v, len, data⟩, 0⟩ t with
    | none => Wf none lo t
    | some t' => Wf none lo (mapChain v (annotate len) t') := by
  have hkey : (rnSearch v t).key = v := ht.shaped.rnSearch_key (hasKey_of_entry hv)
  induction t generalizing lo with
  | leaf g =>
    intro d hd _
    by_cases hlen : d.len = len
    · simp only [hflag d hd hlen, Bool.false_eq_true, false_iff]
      omega
    · exact h d hd fun heq => hlen (Prod.mk.inj (Option.some.inj heq)).2.symm
  | node bit ms child ih =>
    obtain ⟨hbit, hchild, hlist⟩ := h
    have hoff : Wf none (bit + 1) (child !v.getMsbD bit) := (Wf.toggle ht.shaped.off).mpr (hchild _)
    by_cases hle : len ≤ bit
    · obtain ⟨ms', hms', hlisted⟩ :=
        hlist.insertMask hv (fun k d hd => ht.key_eq hd hv hle) hlo hle
      simp only [lift, RadixMask.len, if_pos hle, hms', Option.map_some, mapChain]
      refine ⟨hbit, forall_update (P := fun _ t => Wf none (bit + 1) t)
        ((hchild _).marked (ht.shaped.below _) hkey (by omega)) hoff, hlisted.congr fun k i _ _ => ?_⟩
      exact entry_congr (plain_update_of_eq (plain_annotate v len (child (v.getMsbD bit)))).symm k i
    · -- Shorter masks only are listed here, so the exception is not seen.
      have hsame : Listed lo bit ms (Tree.node bit ms child).entry :=
        hlist.congr fun k i _ hi => except_of_len_ne (by omega)
      have ih := ih (v.getMsbD bit) (hchild _) (ht.below _) (by omega) hv hflag hkey
      cases hlift : lift v ⟨⟨v, len, data⟩, 0⟩ (child (v.getMsbD bit)) with
      | none =>
        rw [hlift] at ih
        simp only [lift, RadixMask.len, if_neg hle, hlift, Option.map_none]
        exact ⟨hbit, forall_side ih hoff, hsame⟩
      | some t₁ =>
        rw [hlift] at ih
        simp only [lift, RadixMask.len, if_neg hle, hlift, Option.map_some, mapChain, update_self,
          update_idem]
        refine ⟨hbit, forall_update (P := fun _ t => Wf none (bit + 1) t) ih hoff,
          hsame.congr fun k i _ _ => (entry_congr (plain_update_of_eq ?_) k i).symm⟩
        rw [plain_annotate, plain_lift hlift]

theorem Group.Annotated.promoted_iff (h : g.Annotated none lo) {d : Duped δ} (hd : d ∈ g.chain) :
    d.promoted b = true ↔ lo ≤ d.len ∧ d.len ≤ b := by
  rw [Duped.promoted, Bool.and_eq_true, decide_eq_true_iff, Bool.not_eq_true', ← Bool.not_eq_true,
    h d hd nofun, and_comm, not_lt]

/-- The annotations of the leaves below a new node within its range move up to it. -/
theorem Wf.promoted (h : Wf none lo t) (hs : t.Shaped) (hlo : lo ≤ b + 1)
    (ht : t.testsBefore (b + 1) = false) :
    Wf none (b + 1) (promote b t).2 ∧ Listed lo b (promote b t).1 t.entry := by
  cases t with
  | leaf g =>
    have hann : g.Annotated none lo := h
    refine ⟨List.forall_mem_map.mpr fun d hd _ => ?_, ?_, List.forall_mem_map.mpr fun d _ => rfl,
      fun l => ?_⟩
    · rw [Bool.or_eq_true, hann d hd nofun, hann.promoted_iff hd]
      change _ ↔ d.len < b + 1
      omega
    · exact List.pairwise_map.mpr (hs.sorted.sublist List.filter_sublist)
    · rw [hs.entry_eq_some_iff]
      constructor
      · rintro ⟨r, hr, rfl⟩
        obtain ⟨d, hd, rfl⟩ := List.mem_map.mp hr
        obtain ⟨hd, hprom⟩ := List.mem_filter.mp hd
        exact ⟨⟨rfl, d, hd, rfl, rfl⟩, (hann.promoted_iff hd).mp hprom⟩
      · rintro ⟨⟨hkey, d, hd, hlen, hdata⟩, hrange⟩
        have hprom := (hann.promoted_iff hd).mpr (hlen ▸ hrange)
        refine ⟨_, List.mem_map.mpr ⟨d, List.mem_filter.mpr ⟨hd, hprom⟩, rfl⟩, ?_⟩
        rw [Group.leaf, hlen, hdata]
        exact congrArg (Leaf.mk · l.len l.data) hkey
  | node n ms child =>
    obtain ⟨-, hchild, hlist⟩ := h
    have hbit : b + 1 ≤ n := by simpa [Tree.testsBefore] using ht
    refine ⟨⟨hbit, hchild, ?_, ?_, fun l => ?_⟩, ?_, ?_, fun l => ?_⟩
    · exact hlist.sorted.sublist (List.takeWhile_sublist _)
    · exact fun r hr => hlist.single r ((List.takeWhile_sublist _).subset hr)
    · constructor
      · rintro ⟨r, hr, rfl⟩
        obtain ⟨hr, hlen⟩ := hlist.sorted.mem_takeWhile.mp hr
        obtain ⟨hl, -, hn⟩ := (hlist.mem r.leaf).mp ⟨r, hr, rfl⟩
        exact ⟨hl, hlen, hn⟩
      · rintro ⟨hl, hlen, hn⟩
        obtain ⟨r, hr, rfl⟩ := (hlist.mem l).mpr ⟨hl, by omega, hn⟩
        exact ⟨r, hlist.sorted.mem_takeWhile.mpr ⟨hr, hlen⟩, rfl⟩
    · exact hlist.sorted.sublist (List.dropWhile_sublist _)
    · exact fun r hr => hlist.single r ((List.dropWhile_sublist _).subset hr)
    · constructor
      · rintro ⟨r, hr, rfl⟩
        obtain ⟨hr, hlen⟩ := hlist.sorted.mem_dropWhile.mp hr
        obtain ⟨hl, hrange, -⟩ := (hlist.mem r.leaf).mp ⟨r, hr, rfl⟩
        exact ⟨hl, hrange, hlen⟩
      · rintro ⟨hl, hrange, hlen⟩
        obtain ⟨r, hr, rfl⟩ := (hlist.mem l).mpr ⟨hl, hrange, by omega⟩
        exact ⟨r, hlist.sorted.mem_dropWhile.mpr ⟨hr, hlen⟩, rfl⟩

theorem Tree.Shaped.not_hasKey (h : t.Shaped) (hne : v.getMsbD b ≠ (rnSearch v t).key.getMsbD b) :
    ¬ t.HasKey v :=
  fun hv => hne (by rw [h.rnSearch_key hv])

theorem Wf.newpair (h : Wf none lo t) (hs : t.Shaped) (hlo : lo ≤ b)
    (hne : v.getMsbD b ≠ (rnSearch v t).key.getMsbD b) (ht : t.testsBefore b = false) :
    Wf (some (v, len)) lo (rnNewpair v b ⟨len, data, false⟩ t) := by
  have hnot := hs.not_hasKey hne
  have ht' : t.testsBefore (b + 1) = false := by
    cases t with
    | leaf g => rfl
    | node n ms child =>
      have hbit : b ≤ n := by simpa [Tree.testsBefore] using ht
      have hn : b ≠ n := by
        rintro rfl
        exact hne (hs.side (hasKey_rnSearch v (child (v.getMsbD b)))).symm
      simp only [Tree.testsBefore, decide_eq_false_iff_not]
      omega
  obtain ⟨hbelow, hlist⟩ := h.promoted hs (by omega) ht'
  refine ⟨hlo, fun side => ?_, hlist.congr fun k i _ _ => ?_⟩
  · dsimp only
    split
    · exact List.forall_mem_singleton.mpr fun hx => absurd rfl hx
    · exact (Wf.toggle (mt (hasKey_congr (plain_promote b t)).mp hnot)).mp hbelow
  · have hentry : ∀ k n, (rnNewpair v b ⟨len, data, false⟩ t).entry k n =
        if k = v ∧ n = len then some data else t.entry k n := fun k n => hs.entry_newpair hne ht
    exact congrFun (congrFun (except_eq_of_set hentry (entry_eq_none hnot len)).symm k) i

/-- A new pair on the path of `v`: the one exception is the new leaf. -/
theorem Wf.inserted (h : Wf none lo t) (hs : t.Shaped)
    (hne : v.getMsbD b ≠ (rnSearch v t).key.getMsbD b) (ht : t.testsBefore b = true) :
    Wf (some (v, len)) lo (rnInsert v b ⟨len, data, false⟩ t) := by
  induction t generalizing lo with
  | leaf g => cases ht
  | node n ms child ih =>
    obtain ⟨hlo, hchild, hlist⟩ := h
    have hn : n < b := by simpa [Tree.testsBefore] using ht
    have hentry : ∀ k i, (rnInsert v b ⟨len, data, false⟩ (.node n ms child)).entry k i =
        if k = v ∧ i = len then some data else (Tree.node n ms child).entry k i :=
      fun k i => hs.entry_rnInsert hne ht
    refine ⟨hlo, forall_update (P := fun _ t => Wf (some (v, len)) (n + 1) t) ?_
      ((Wf.toggle hs.off).mp (hchild _)), ?_⟩
    · split
      · next hc => exact ih _ (hchild _) (hs.below _) hne hc
      · next hc => exact (hchild _).newpair (hs.below _) hn hne (Bool.eq_false_iff.mpr hc)
    · rw [← except_eq_of_set hentry (entry_eq_none (hs.not_hasKey hne) len)] at hlist
      exact hlist

theorem Linked.wf (h : Linked v len data t t') (hs : t.Shaped) (hwf : Wf none lo t) :
    Wf (some (v, len)) lo t' := by
  have hentry := h.entry hs
  cases h with
  | duped key new sorted mem =>
    refine hwf.mapped hs (fun lo' _ hann d hd hx => ?_) (fun _ _ hk => (Wf.toggle hk).mp)
      fun k n _ => ?_
    · rcases (mem d).mp hd with rfl | hd
      · exact absurd (by rw [key]) hx
      · exact hann d hd nofun
    · have hnew : t.entry v len = none :=
        hs.entry_eq_none_iff.mpr fun ⟨_, d, hd, hlen⟩ => new d hd hlen
      rw [except_eq_of_set hentry hnew, except_none]
  | paired agree parts before => exact hwf.inserted hs parts before

theorem Valid.rnAddroute (h : Valid t) (hf : Fresh v len)
    (ht : rnAddroute v len data t = some t') : Valid t' := by
  obtain ⟨hkept, -, -, hentry⟩ := h.kept.rnAddroute ht
  have hfresh : ∀ k n d, t'.entry k n = some d → Fresh k n := by
    intro k n d hd
    rw [hentry] at hd
    split at hd
    · next heq => exact heq.1 ▸ heq.2 ▸ hf
    · exact h.fresh k n d hd
  refine ⟨hkept, hfresh, ?_⟩
  rcases h.kept.rnAddroute_cases v len data with ⟨-, hnone⟩ | ⟨-, t₁, hlinked, hsome⟩
  · rw [hnone] at ht
    cases ht
  · rw [hsome] at ht
    cases ht
    have hplain := plain_annotateLeaf ⟨v, len, data⟩ t₁
    have hneat : t₁.Neat :=
      ⟨(hlinked.kept h.kept).shaped, fun k n d hd => hfresh k n d ((entry_congr hplain k n).trans hd)⟩
    have hv : t₁.entry v len = some data := by
      rw [hlinked.entry h.kept.shaped, if_pos ⟨rfl, rfl⟩]
    have hspec := (hlinked.wf h.kept.shaped h.wf).lifted hneat (Nat.zero_le _) hv hlinked.search.2.2
    rw [annotateLeaf]
    cases hlift : lift v ⟨⟨v, len, data⟩, 0⟩ t₁ with
    | none =>
      rw [hlift] at hspec
      exact hspec
    | some t₂ =>
      rw [hlift] at hspec
      exact hspec

theorem kept_rnInithead (hw : 0 < w) : Kept (rnInithead : Tree w δ) := by
  refine ⟨⟨fun side k hk => ?_, fun s k s' k' _ _ i hi => absurd hi (Nat.not_lt_zero i),
    fun side => ⟨fun _ => ?_, nofun, List.Pairwise.nil⟩⟩, [], _, rfl, fun _ => rfl⟩
  · rw [← show _ = k from hk]
    cases side <;> simp [hw]
  · cases side <;> simp

theorem entry_rnInithead (k : BitVec w) (n : ℕ) : (rnInithead : Tree w δ).entry k n = none := by
  simp [rnInithead, Tree.entry, rnSearch, Group.entry]

theorem valid_rnInithead (hw : 0 < w) : Valid (rnInithead : Tree w δ) := by
  refine ⟨kept_rnInithead hw, fun k n d hd => ?_, le_rfl, fun side => ?_, .nil, ?_, fun l => ?_⟩
  · rw [entry_rnInithead] at hd
    cases hd
  · exact List.forall_mem_nil _
  · exact List.forall_mem_nil _
  · refine iff_of_false (by simp) fun hl => ?_
    cases (entry_rnInithead l.key l.len).symm.trans hl.1

end Aware.Radix
