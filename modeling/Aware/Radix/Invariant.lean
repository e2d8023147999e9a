import Aware.Radix.Entries

/-!
# What the radix tree keeps

Bits grow downwards, and a leaf is annotated at the highest node above it whose bit is not before
the length of its mask. One leaf may be excepted: it is in the tree and its annotation is not, as
while it is linked or unlinked.
-/
namespace Aware.Radix
open Function Aware.BitStrings

variable {w : ℕ} {δ : Type} {x x' : Option (BitVec w × ℕ)} {lo n i len : ℕ} {data d d' : δ}
variable {t : Tree w δ} {ms : List (RadixMask w δ)} {child : Bool → Tree w δ} {v k k' : BitVec w}
variable {m m' : PrefixMap w δ}

structure Fresh (v : BitVec w) (len : ℕ) : Prop where
  bound : len ≤ w
  clean : Clean len v

structure Tree.Neat (t : Tree w δ) : Prop where
  shaped : t.Shaped
  fresh : ∀ k n d, t.entry k n = some d → Fresh k n

def except (x : Option (BitVec w × ℕ)) (m : PrefixMap w δ) : PrefixMap w δ :=
  fun k n => if x = some (k, n) then none else m k n

/-- The mask list of a node at bit `n` whose parent tests a bit before `lo`. -/
structure Listed (lo n : ℕ) (ms : List (RadixMask w δ)) (m : PrefixMap w δ) : Prop where
  sorted : Descending RadixMask.len ms
  single : ∀ r ∈ ms, r.refs = 0
  mem : ∀ l, (∃ r ∈ ms, r.leaf = l) ↔ m l.key l.len = some l.data ∧ lo ≤ l.len ∧ l.len ≤ n

def Group.Annotated (x : Option (BitVec w × ℕ)) (lo : ℕ) (g : Group w δ) : Prop :=
  ∀ d ∈ g.chain, x ≠ some (g.key, d.len) → (d.annotated = true ↔ d.len < lo)

/-- `x` is the leaf without its annotation, if any. -/
def Wf (x : Option (BitVec w × ℕ)) : ℕ → Tree w δ → Prop
  | lo, .leaf g => g.Annotated x lo
  | lo, .node n ms child => lo ≤ n ∧ (∀ side, Wf x (n + 1) (child side)) ∧
      Listed lo n ms (except x (Tree.node n ms child).entry)

structure Valid (t : Tree w δ) : Prop where
  kept : Kept t
  fresh : ∀ k n d, t.entry k n = some d → Fresh k n
  wf : Wf none 0 t

theorem Valid.neat (h : Valid t) : t.Neat :=
  ⟨h.kept.shaped, h.fresh⟩

section Neat

theorem Tree.Shaped.entry_below (h : (Tree.node n ms child).Shaped) {side : Bool} :
    (child side).entry k i = if k.getMsbD n = side then (Tree.node n ms child).entry k i else none := by
  split
  · next hside => rw [Tree.entry, Tree.entry, rnSearch, hside]
  · next hside => exact entry_eq_none (fun hk => hside (h.side hk)) i

theorem Tree.Neat.below (h : (Tree.node n ms child).Neat) (side : Bool) : (child side).Neat := by
  refine ⟨h.shaped.below side, fun k i d hd => h.fresh k i d ?_⟩
  rw [h.shaped.entry_below] at hd
  split at hd
  · exact hd
  · cases hd

theorem Tree.Neat.key_eq (h : (Tree.node n ms child).Neat)
    (hk : (Tree.node n ms child).entry k i = some d)
    (hk' : (Tree.node n ms child).entry k' i = some d') (hi : i ≤ n) : k = k' :=
  ((h.shaped.agree (hasKey_of_entry hk) (hasKey_of_entry hk')).mono hi).eq_of_clean
    (h.fresh k i d hk).clean (h.fresh k' i d' hk').clean

theorem Tree.Neat.reached (h : t.Neat) {y : Duped δ} (hy : y ∈ (rnSearch v t).chain) :
    Fresh (rnSearch v t).key y.len :=
  h.fresh _ _ _ (h.shaped.entry_of_mem rfl hy)

end Neat

section Listed

@[simp] theorem except_none : except none m = m :=
  rfl

theorem except_eq_of_set (hm : ∀ k n, m' k n = if k = v ∧ n = len then some data else m k n)
    (hnew : m v len = none) : except (some (v, len)) m' = m := by
  funext k n
  simp only [except, Option.some.injEq, Prod.mk.injEq, hm]
  split
  · next heq => rw [← heq.1, ← heq.2, hnew]
  · next hne => rw [if_neg fun heq => hne ⟨heq.1.symm, heq.2.symm⟩]

theorem except_eq_of_clear (hm : ∀ k n, m' k n = if k = v ∧ n = len then none else m k n) :
    except (some (v, len)) m = m' := by
  funext k n
  simp only [except, Option.some.injEq, Prod.mk.injEq, hm, eq_comm]

theorem except_eq_self (h : m v len = none) : except (some (v, len)) m = m := by
  funext k n
  simp only [except, Option.some.injEq, Prod.mk.injEq]
  split
  · next heq => rw [← heq.1, ← heq.2, h]
  · rfl

theorem except_of_len_ne (h : i ≠ len) : except (some (v, len)) m k i = m k i :=
  if_neg fun heq => h (Prod.mk.inj (Option.some.inj heq)).2.symm

theorem Listed.congr (h : Listed lo n ms m) (hm : ∀ k i, lo ≤ i → i ≤ n → m k i = m' k i) :
    Listed lo n ms m' := by
  refine ⟨h.sorted, h.single, fun l => ?_⟩
  rw [h.mem]
  exact and_congr_left fun hrange => by rw [hm _ _ hrange.1 hrange.2]

theorem Listed.insertMask (h : Listed lo n ms (except (some (v, len)) m))
    (hv : m v len = some data) (hkeys : ∀ k d, m k len = some d → k = v) (hlo : lo ≤ len)
    (hn : len ≤ n) : ∃ ms', insertMask ⟨⟨v, len, data⟩, 0⟩ ms = some ms' ∧ Listed lo n ms' m := by
  have hnew : ∀ r ∈ ms, r.len ≠ len := by
    intro r hr hlen
    have hin := ((h.mem r.leaf).mp ⟨r, hr, rfl⟩).1
    rw [except] at hin
    split at hin
    · cases hin
    · next hid =>
        rw [show r.leaf.len = len from hlen] at hin hid
        exact hid (congrArg some (Prod.ext (hkeys _ _ hin).symm rfl))
  obtain ⟨ms', hms', hdesc, hmem⟩ := h.sorted.place_eq_some
    (a := (⟨⟨v, len, data⟩, 0⟩ : RadixMask w δ))
    (fun x => if normal len then none else some { x with refs := x.refs + 1 }) hnew
  refine ⟨ms', hms', hdesc, fun r hr => ?_, fun l => ?_⟩
  · rcases (hmem r).mp hr with rfl | hr
    · rfl
    · exact h.single r hr
  · have hsplit : (∃ r ∈ ms', r.leaf = l) ↔ ⟨v, len, data⟩ = l ∨ ∃ r ∈ ms, r.leaf = l := by
      simp only [hmem, or_and_right, exists_or, exists_eq_left]
    rw [hsplit, h.mem, except]
    by_cases hid : some (v, len) = some (l.key, l.len)
    · obtain ⟨hkey, hlen⟩ := Prod.mk.inj (Option.some.inj hid)
      obtain ⟨key, i, d⟩ := l
      cases hkey
      cases hlen
      simp [hv, hlo, hn]
    · rw [if_neg hid, or_iff_right]
      rintro rfl
      exact hid rfl

theorem removeMask_eq_some (h : Descending RadixMask.len ms) (hrefs : ∀ r ∈ ms, r.refs = 0)
    (hm : ∃ r ∈ ms, r.leaf = ⟨v, len, data⟩) :
    ∃ ms', removeMask v len ms = some ms' ∧ ms'.Sublist ms ∧
      ∀ r, r ∈ ms' ↔ r ∈ ms ∧ r.len ≠ len := by
  induction ms with
  | nil => simp at hm
  | cons r ms ih =>
    obtain ⟨r₀, hr₀, hleaf⟩ := hm
    have hlen₀ : r₀.len = len := by rw [RadixMask.len, hleaf]
    by_cases hof : r.isOf v len = true
    · have hlen : r.len = len := by
        simp only [RadixMask.isOf, Bool.and_eq_true, beq_iff_eq] at hof
        exact hof.1
      refine ⟨ms, ?_, List.sublist_cons_self r ms, fun r' => ?_⟩
      · simp [removeMask, hof, hrefs r (by simp)]
      · constructor
        · intro hr'
          have := h.lt_of_mem hr'
          exact ⟨List.mem_cons_of_mem _ hr', by omega⟩
        · rintro ⟨hr', hne⟩
          exact (List.mem_cons.mp hr').resolve_left fun heq => hne (heq ▸ hlen)
    · have hmem : r₀ ∈ ms := by
        refine (List.mem_cons.mp hr₀).resolve_left fun heq => hof ?_
        rw [← heq]
        simp [RadixMask.isOf, hlen₀, hleaf]
      have hgt := h.lt_of_mem hmem
      obtain ⟨ms', hms', hsub, hiff⟩ := ih h.tail (fun r' hr' => hrefs r' (by simp [hr']))
        ⟨r₀, hmem, hleaf⟩
      refine ⟨r :: ms', by simp [removeMask, hof, hms'], hsub.cons_cons r, fun r' => ?_⟩
      rw [List.mem_cons, List.mem_cons, hiff, or_and_right]
      refine or_congr_left (iff_self_and.mpr ?_)
      rintro rfl
      omega

theorem Listed.removeMask (h : Listed lo n ms m) (hv : m v len = some data)
    (hkeys : ∀ k d, m k len = some d → k = v) (hlo : lo ≤ len) (hn : len ≤ n) :
    ∃ ms', removeMask v len ms = some ms' ∧ Listed lo n ms' (except (some (v, len)) m) := by
  obtain ⟨ms', hms', hsub, hiff⟩ :=
    removeMask_eq_some h.sorted h.single ((h.mem ⟨v, len, data⟩).mpr ⟨hv, hlo, hn⟩)
  refine ⟨ms', hms', h.sorted.sublist hsub, fun r hr => h.single r (hsub.subset hr), fun l => ?_⟩
  have hsplit : (∃ r ∈ ms', r.leaf = l) ↔ (∃ r ∈ ms, r.leaf = l) ∧ l.len ≠ len := by
    constructor
    · rintro ⟨r, hr, rfl⟩
      obtain ⟨hr, hne⟩ := (hiff r).mp hr
      exact ⟨⟨r, hr, rfl⟩, hne⟩
    · rintro ⟨⟨r, hr, rfl⟩, hne⟩
      exact ⟨r, (hiff r).mpr ⟨hr, hne⟩, rfl⟩
  rw [hsplit, h.mem]
  by_cases hlen : l.len = len
  · rw [except, hlen]
    refine iff_of_false (fun hand => hand.2 rfl) fun hand => ?_
    split at hand
    · cases hand.1
    · next hid => exact hid (by rw [hkeys _ _ hand.1])
  · rw [except_of_len_ne hlen, and_iff_left hlen]

end Listed

section Exception

theorem Wf.toggle (hk : ¬ t.HasKey v) : Wf none lo t ↔ Wf (some (v, len)) lo t := by
  induction t generalizing lo with
  | leaf g =>
    have hne : ∀ d : Duped δ, some (v, len) ≠ some (g.key, d.len) :=
      fun d heq => hk (congrArg Prod.fst (Option.some.inj heq)).symm
    simp only [Wf, Group.Annotated, ne_eq, hne, reduceCtorEq, not_false_eq_true, true_imp_iff]
  | node n ms child ih =>
    rw [Wf, Wf, except_none, except_eq_self (entry_eq_none hk len)]
    have hside : ∀ side, Wf none (n + 1) (child side) ↔ Wf (some (v, len)) (n + 1) (child side) :=
      fun side => ih side fun hside => hk ⟨side, hside⟩
    simp only [hside]

/-- Below the node that holds its annotation a leaf may be excepted. -/
theorem Wf.except (h : Wf none lo t) (hlt : len < lo) : Wf (some (v, len)) lo t := by
  induction t generalizing lo with
  | leaf g => exact fun d hd _ => h d hd nofun
  | node n ms child ih =>
    obtain ⟨hlo, hchild, hlist⟩ := h
    refine ⟨hlo, fun side => ih side (hchild side) (by omega), hlist.congr fun k i hi _ => ?_⟩
    rw [except_of_len_ne (by omega), except_none]

theorem Wf.annotated (h : Wf x lo t) (v : BitVec w) :
    ∃ lo', lo ≤ lo' ∧ (rnSearch v t).Annotated x lo' := by
  induction t generalizing lo with
  | leaf g => exact ⟨lo, le_rfl, h⟩
  | node n ms child ih =>
    obtain ⟨hlo, hchild, -⟩ := h
    obtain ⟨lo', hlo', hann⟩ := ih _ (hchild _)
    exact ⟨lo', by omega, hann⟩

theorem Wf.mapped (h : Wf x lo t) (hs : t.Shaped) {f : List (Duped δ) → List (Duped δ)}
    (hleaf : ∀ lo', lo ≤ lo' → (rnSearch v t).Annotated x lo' →
      Group.Annotated x' lo' { rnSearch v t with chain := f (rnSearch v t).chain })
    (hoff : ∀ lo (t : Tree w δ), ¬ t.HasKey v → Wf x lo t → Wf x' lo t)
    (hentry : ∀ k n, lo ≤ n → Radix.except x t.entry k n = Radix.except x' (mapChain v f t).entry k n) :
    Wf x' lo (mapChain v f t) := by
  induction t generalizing lo with
  | leaf g => exact hleaf lo le_rfl h
  | node n ms child ih =>
    obtain ⟨hlo, hchild, hlist⟩ := h
    refine ⟨hlo, forall_update (P := fun _ t => Wf x' (n + 1) t) ?_ (hoff _ _ hs.off (hchild _)),
      hlist.congr fun k i hi _ => hentry k i hi⟩
    refine ih _ (hchild _) (hs.below _) (fun lo' hlo' => hleaf lo' (by omega)) fun k i hi => ?_
    by_cases hside : k.getMsbD n = v.getMsbD n
    · have hwhole := hentry k i (by omega)
      rw [mapChain, Radix.except, Radix.except, entry_update n ms ms, if_pos hside] at hwhole
      rwa [Radix.except, Radix.except, hs.entry_below, if_pos hside]
    · have hnot : ¬ (child (v.getMsbD n)).HasKey k := fun hk => hside (hs.side hk)
      rw [Radix.except, Radix.except, entry_eq_none hnot,
        entry_eq_none (mt hasKey_mapChain.mp hnot)]
      simp

end Exception

end Aware.Radix
