import Aware.Radix.Invariant

/-!
# Deletion

The annotation goes first and the leaf after it. A leaf that was alone takes its parent with it,
and the annotations of that node go to what takes its place.
-/
namespace Aware.Radix
open Function Aware.BitStrings

variable {w : ℕ} {δ : Type} {lo n len : ℕ} {data : δ} {t t' : Tree w δ} {v : BitVec w}
variable {ms : List (RadixMask w δ)}

theorem Wf.unlifted (h : Wf none lo t) (ht : t.Neat) (hlo : lo ≤ len)
    (hv : t.entry v len = some data) : ∃ t', unlift v len t = some t' ∧ Wf (some (v, len)) lo t' := by
  induction t generalizing lo with
  | leaf g => exact ⟨_, rfl, fun d hd _ => h d hd nofun⟩
  | node bit ms child ih =>
    obtain ⟨hbit, hchild, hlist⟩ := h
    have hoff : Wf (some (v, len)) (bit + 1) (child !v.getMsbD bit) :=
      (Wf.toggle ht.shaped.off).mp (hchild _)
    by_cases hle : len ≤ bit
    · obtain ⟨ms', hms', hlisted⟩ :=
        hlist.removeMask hv (fun k d hd => ht.key_eq hd hv hle) hlo hle
      refine ⟨.node bit ms' child, by simp only [unlift, if_pos hle, hms'], hbit, ?_, hlisted⟩
      exact forall_side ((hchild (v.getMsbD bit)).except (by omega)) hoff
    · obtain ⟨t₁, ht₁, hwf⟩ := ih _ (hchild _) (ht.below _) (by omega) hv
      refine ⟨.node bit ms (update child (v.getMsbD bit) t₁), ?_, hbit,
        forall_update (P := fun _ t => Wf (some (v, len)) (bit + 1) t) hwf hoff,
        hlist.congr fun k i _ hi => ?_⟩
      · simp only [unlift, if_neg hle, ht₁, Option.map_some]
      · rw [except_of_len_ne (by omega), except_none, entry_congr (plain_update_of_eq (plain_unlift ht₁))]

theorem Wf.unlift_eq_self (h : Wf none lo t) {d : Duped δ} (hd : d ∈ (rnSearch v t).chain)
    (hann : d.annotated = false) : unlift v d.len t = some t := by
  induction t generalizing lo with
  | leaf g => rfl
  | node bit ms child ih =>
    obtain ⟨-, hchild, -⟩ := h
    obtain ⟨lo', hlo', hbelow⟩ := (hchild (v.getMsbD bit)).annotated v
    have hlen : ¬ d.len < lo' := by
      rw [← hbelow d hd nofun, hann]
      exact Bool.false_ne_true
    have hbit : ¬ d.len ≤ bit := by omega
    rw [unlift, if_neg hbit, ih _ (hchild _) hd, Option.map_some, update_eq_self]

theorem unmark_eq {ds : List (Duped δ)} (hds : Descending Duped.len ds)
    (hms : Descending RadixMask.len ms)
    (h : ∀ m ∈ ms, ∃ d ∈ ds, d.annotated = true ∧ d.len = m.len ∧ m.leaf.key = v) :
    unmark v ms ds = ds.map fun d =>
      if ms.any fun m => m.len == d.len then { d with annotated := false } else d := by
  induction ds generalizing ms with
  | nil =>
    cases ms with
    | nil => rfl
    | cons m ms => simpa using h m (by simp)
  | cons d ds ih =>
    cases ms with
    | nil => simp [unmark]
    | cons m ms =>
      obtain ⟨d₀, hd₀, hann, hlen, hkey⟩ := h m (by simp)
      rcases List.mem_cons.mp hd₀ with rfl | hd₀
      · have hof : m.isOf v d₀.len = true := by simp [RadixMask.isOf, hlen, hkey]
        have hrest : ∀ m' ∈ ms, ∃ d ∈ ds, d.annotated = true ∧ d.len = m'.len ∧
            m'.leaf.key = v := by
          intro m' hm'
          obtain ⟨d, hd, hd'⟩ := h m' (by simp [hm'])
          refine ⟨d, (List.mem_cons.mp hd).resolve_left fun heq => ?_, hd'⟩
          have := hms.lt_of_mem hm'
          rw [heq] at hd'
          omega
        rw [unmark, if_pos (by simp [hann, hof]), ih hds.tail hms.tail hrest, List.map_cons,
          if_pos (by simp [hlen])]
        refine congrArg _ (List.map_congr_left fun d hd => ?_)
        have hne : (m.len == d.len) = false := by
          have := hds.lt_of_mem hd
          simp only [beq_eq_false_iff_ne]
          omega
        rw [List.any_cons, hne, Bool.false_or]
      · have hlt := hds.lt_of_mem hd₀
        have hnone : ∀ m' ∈ m :: ms, m'.len ≠ d.len := by
          intro m' hm'
          have := hms.le_head rfl hm'
          omega
        have hof : m.isOf v d.len = false := by
          simp [RadixMask.isOf, hnone m (by simp)]
        have hrest : ∀ m' ∈ m :: ms, ∃ d ∈ ds, d.annotated = true ∧ d.len = m'.len ∧
            m'.leaf.key = v := by
          intro m' hm'
          obtain ⟨d', hd', hd''⟩ := h m' hm'
          refine ⟨d', (List.mem_cons.mp hd').resolve_left fun heq => ?_, hd''⟩
          exact hnone m' hm' (heq ▸ hd''.2.1.symm)
        rw [unmark, if_neg (by simp [hof]), ih hds.tail hms hrest, List.map_cons, if_neg]
        simpa using fun m' hm' => hnone m' hm'

theorem Wf.demoted (h : Wf none (n + 1) t) (hs : t.Shaped) (hlo : lo ≤ n)
    (hms : Listed lo n ms t.entry) : Wf none lo (demote ms t) := by
  cases t with
  | leaf g =>
    have hof : ∀ m ∈ ms, ∃ d ∈ g.chain, d.annotated = true ∧ d.len = m.len ∧
        m.leaf.key = g.key := by
      intro m hm
      obtain ⟨hl, -, hn⟩ := (hms.mem m.leaf).mp ⟨m, hm, rfl⟩
      obtain ⟨hkey, d, hd, hlen, -⟩ := hs.entry_eq_some_iff.mp hl
      exact ⟨d, hd, (h d hd nofun).mpr (by omega), hlen, hkey.symm⟩
    have hany : ∀ d ∈ g.chain, (ms.any fun m => m.len == d.len) = true ↔
        lo ≤ d.len ∧ d.len ≤ n := by
      intro d hd
      rw [List.any_eq_true]
      constructor
      · rintro ⟨m, hm, hlen⟩
        obtain ⟨-, hrange⟩ := (hms.mem m.leaf).mp ⟨m, hm, rfl⟩
        rwa [← show m.len = d.len by simpa using hlen]
      · intro hrange
        have hl : (Tree.leaf g).entry g.key d.len = some d.data := hs.entry_of_mem (v := g.key) rfl hd
        obtain ⟨m, hm, hleaf⟩ := (hms.mem (g.leaf d)).mpr ⟨hl, hrange⟩
        exact ⟨m, hm, by simp [RadixMask.len, hleaf, Group.leaf]⟩
    rw [demote, unmark_eq hs.sorted hms.sorted hof]
    refine List.forall_mem_map.mpr fun d hd _ => ?_
    have hann := h d hd nofun
    split
    · next hc =>
        have := (hany d hd).mp hc
        simp only [Bool.false_eq_true, false_iff]
        omega
    · next hc =>
        have := mt (hany d hd).mpr hc
        rw [hann]
        omega
  | node n' ms' child =>
    obtain ⟨hn, hchild, hlist⟩ := h
    refine ⟨by omega, hchild, ?_, fun m hm => ?_, fun l => ?_⟩
    · refine List.pairwise_append.mpr ⟨hlist.sorted, hms.sorted, fun m' hm' m hm => ?_⟩
      have hlow := (hlist.mem m'.leaf).mp ⟨m', hm', rfl⟩
      have hhigh := (hms.mem m.leaf).mp ⟨m, hm, rfl⟩
      exact hhigh.2.2.trans_lt hlow.2.1
    · exact (List.mem_append.mp hm).elim (hlist.single m) (hms.single m)
    · simp only [List.mem_append, or_and_right, exists_or]
      rw [hlist.mem, hms.mem]
      constructor
      · rintro (⟨hl, hrange⟩ | ⟨hl, hrange⟩)
        · exact ⟨hl, by omega, hrange.2⟩
        · exact ⟨hl, hrange.1, by omega⟩
      · rintro ⟨hl, hrange⟩
        by_cases hn : l.len ≤ n
        · exact .inr ⟨hl, hrange.1, hn⟩
        · exact .inl ⟨hl, by omega, hrange.2⟩

theorem Wf.dropped (h : Wf (some (v, len)) lo t) (hs : t.Shaped) (ht : ∀ g, t ≠ .leaf g)
    (hkey : (rnSearch v t).key = v) (honly : ∀ d ∈ (rnSearch v t).chain, d.len = len) :
    Wf none lo (dropLeaf v t) := by
  induction t generalizing lo with
  | leaf g => exact absurd rfl (ht g)
  | node n ms child ih =>
    obtain ⟨hlo, hchild, hlist⟩ := h
    have hoff : Wf none (n + 1) (child !v.getMsbD n) := (Wf.toggle hs.off).mpr (hchild _)
    rw [except_eq_of_clear fun k i => hs.entry_dropLeaf_only ht hkey honly] at hlist
    cases hc : child (v.getMsbD n) with
    | leaf g =>
      rw [dropLeaf_parent hc] at hlist ⊢
      refine hoff.demoted (hs.below _) hlo (hlist.congr fun k i _ _ => ?_)
      exact entry_congr (plain_demote ms _) k i
    | node n' ms' child' =>
      have hbelow : ∀ g, child (v.getMsbD n) ≠ .leaf g := by simp [hc]
      rw [dropLeaf_below hbelow] at hlist ⊢
      exact ⟨hlo, forall_update (P := fun _ t => Wf none (n + 1) t)
        (ih _ (hchild _) (hs.below _) hbelow hkey honly) hoff, hlist⟩

theorem Unlinked.wf (h : Unlinked v len t t') (hk : Kept t) (hkey : (rnSearch v t).key = v)
    (hwf : Wf (some (v, len)) lo t) : Wf none lo t' := by
  have hentry := h.entry hk hkey
  cases h with
  | erased left =>
    refine hwf.mapped hk.shaped (fun lo' _ hann d hd _ => ?_) (fun _ _ hk => (Wf.toggle hk).mpr)
      fun k n _ => ?_
    · obtain ⟨hd, hne⟩ := (hk.shaped.search v).sorted.mem_eraseP.mp hd
      exact hann d hd (by simpa [hkey] using Ne.symm hne)
    · rw [except_eq_of_clear hentry, except_none]
  | dropped root only => exact hwf.dropped hk.shaped hk.top.ne_leaf hkey only

theorem Valid.rnDelete (h : Valid t) {l : Leaf w δ} (ht : rnDelete v len t = some (l, t')) :
    Valid t' := by
  obtain ⟨hkept, -, hentry⟩ := h.kept.rnDelete ht
  obtain ⟨hkey, d, hd, rfl, -, t₁, ht₁, hplain, hunlinked⟩ := h.kept.shaped.rnDelete_eq_some ht
  obtain ⟨t₂, ht₂, hwf⟩ := h.wf.unlifted h.neat (Nat.zero_le _) (h.kept.shaped.entry_of_mem hkey hd)
  have heq : t₂ = t₁ := by
    refine Option.some.inj (ht₂.symm.trans ?_)
    split at ht₁
    · exact ht₁
    · rw [← ht₁]
      exact h.wf.unlift_eq_self hd (by simp_all)
  refine ⟨hkept, fun k n d' hd' => ?_, hunlinked.wf (h.kept.congr hplain) ?_ (heq ▸ hwf)⟩
  · rw [hentry] at hd'
    split at hd'
    · cases hd'
    · exact h.fresh k n d' hd'
  · exact (congrArg Group.key (rnSearch_congr hplain v)).trans hkey

theorem Valid.rnDelete_isSome (h : Valid t) (hv : t.entry v len = some data) :
    (Radix.rnDelete v len t).isSome := by
  obtain ⟨hkey, d, hd, rfl, -⟩ := h.kept.shaped.entry_eq_some_iff.mp hv
  obtain ⟨t₁, ht₁, -⟩ := h.wf.unlifted h.neat (Nat.zero_le _) hv
  rw [h.kept.shaped.rnDelete_isSome_iff]
  exact ⟨hkey, d, hd, rfl, fun _ => unlift_isSome_iff.mp (ht₁ ▸ rfl)⟩

end Aware.Radix
