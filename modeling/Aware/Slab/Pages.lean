import Aware.Slab.Pieces

/-!
# Runs of pages

What `al_slab_alloc_pages` and `al_slab_free_pages` do to the row of pieces.
-/
namespace Aware.Slab
open Function Linked Tiling

section Words
variable {n k : ℕ}

theorem toNat_ofNat (h : n < 2 ^ 63) : (BitVec.ofNat 64 n).toNat = n := by
  rw [BitVec.toNat_ofNat]
  exact Nat.mod_eq_of_lt (by omega)

theorem ofNat_sub (h : k ≤ n) (hn : n < 2 ^ 63) :
    BitVec.ofNat 64 n - BitVec.ofNat 64 k = BitVec.ofNat 64 (n - k) := by
  apply BitVec.eq_of_toNat_eq
  rw [BitVec.toNat_sub_of_le, toNat_ofNat hn, toNat_ofNat (by omega), toNat_ofNat (by omega)]
  rw [BitVec.le_def, toNat_ofNat hn, toNat_ofNat (by omega)]
  exact h

end Words

section Lists
variable {p p' : Pool} {xs : Ref → List Ref} {ys : List Ref} {e x y r : Ref} {i k n : ℕ}

theorem cell_unlinked (h : Lists p xs) (he : Head e) (hx : x ∈ xs e)
    (hys : ∀ a, a ∈ ys ↔ a ∈ xs e ∧ a ≠ x) (hr : Cell (update xs e ys) r) :
    Cell xs r ∧ r ≠ x := by
  obtain ⟨e', he', hmem⟩ := hr
  rcases List.mem_cons.mp hmem with rfl | hmem
  · refine ⟨he'.cell, ?_⟩
    rintro rfl
    exact h.rings.inner e _ he hx he'
  · by_cases hee : e' = e
    · rw [hee, update_self] at hmem
      exact ⟨cell_of_mem he ((hys r).mp hmem).1, ((hys r).mp hmem).2⟩
    · rw [update_of_ne hee] at hmem
      refine ⟨cell_of_mem he' hmem, ?_⟩
      rintro rfl
      exact hee (h.rings.apart e' e _ he' he hmem hx)

theorem splitRun_eq {w : ℕ} (hw : (p.slab (.page i)).toNat = w) (hi : p.area.mapped (.page i))
    (hlast : p.area.mapped (.page (i + w - 1))) (hrem : p.area.mapped (.page (i + k)))
    (hprev : p.area.mapped (p.prev (.page i))) (hnext : p.area.mapped (p.next (.page i)))
    (hk : 0 < k) (hkw : k < w) (hne : p.prev (.page i) ≠ .page i) :
    splitRun i k p = some { p with
      slab := update p.slab (.page (i + k)) (p.slab (.page i) - BitVec.ofNat 64 k)
      next := update (update p.next (.page (i + k)) (p.next (.page i)))
        (p.prev (.page i)) (.page (i + k))
      prev := update (update (update p.prev (.page (i + w - 1)) (.page (i + k)))
        (.page (i + k)) (p.prev (.page i))) (p.next (.page i)) (.page (i + k))
      type := update (update (update p.type (.page (i + w - 1)) .page)
        (.page (i + k)) (p.type (.page i))) (p.next (.page i)) .page } := by
  have hik : Ref.page i ≠ .page (i + k) := page_ne (by omega)
  have hiw : Ref.page i ≠ .page (i + w - 1) := page_ne (by omega)
  simp only [splitRun, Pool.read, Pool.setSlab, Pool.setNext, Pool.setPrev, Pool.write, hi, hw, hlast, hrem,
    if_true, Option.bind_eq_bind, Option.bind_some, update_of_ne hiw, update_of_ne hik,
    update_of_ne hne.symm, hprev, hnext]

end Lists

section Alloc
variable {p : Pool} {ps l r : List Piece} {xs : Ref → List Ref} {o n k : ℕ}

theorem Inv.mem_free (h : Inv p ps xs) (hx : (o, .free n) ∈ placed Piece.len 0 ps) :
    Ref.page o ∈ xs .free :=
  (h.mem_iff .free head_free _).mpr ⟨o, _, hx, trivial, rfl⟩

theorem Inv.word_free (h : Inv p ps xs) (hx : (o, .free n) ∈ placed Piece.len 0 ps) :
    (p.slab (.page o)).toNat = n := by
  have hb : o + n ≤ _ := (h.bounds hx).1
  have hsmall := h.small
  rw [(h.shows _ _ hx).2.1]
  exact toNat_ofNat (by omega)

theorem mem_middle {x : Piece} : (total Piece.len l, x) ∈ placed Piece.len 0 (l ++ [x] ++ r) := by
  rw [mem_placed_append, Nat.zero_add]
  exact .inr (.inl List.mem_cons_self)

theorem Inv.splitRun_run (h : Inv p (l ++ [.free n] ++ r) xs) (hk : 0 < k) (hkn : k < n) :
    ∃ p' ys, splitRun (total Piece.len l) k p = some p' ∧ p'.pfree = p.pfree ∧
      Rest (Seg (total Piece.len l) n) xs p p' ∧ Lists p' (update xs .free ys) ∧
      (∀ a, a ∈ ys ↔ a = .page (total Piece.len l + k) ∨ a ∈ xs .free ∧ a ≠ .page (total Piece.len l)) ∧
      Shows p' (total Piece.len l + k) (.free (n - k)) := by
  generalize hl : total Piece.len l = o
  have hx : (o, .free n) ∈ placed Piece.len 0 (l ++ [.free n] ++ r) := hl ▸ mem_middle
  have hb := (h.bounds hx).1
  change o + n ≤ _ at hb
  obtain ⟨-, hslab, htype, hclosed, -⟩ := h.shows o _ hx
  have hmem := h.mem_free hx
  have hprev := h.rings.prev_mem head_free hmem
  have hnext := h.rings.next_mem head_free hmem
  have hout : ∀ j, o < j → j < o + n → ¬ Cell xs (.page j) := fun j hj hj' =>
    h.not_cell hx ⟨hj.le, hj'⟩ (.inl hj)
  have hin : ∀ j, o ≤ j → j < o + n → Seg o n (.page j) := fun j hj hj' => ⟨j, rfl, hj, hj'⟩
  -- the cells of the list are none of the pages behind the first
  have hcell : ∀ z ∈ Ref.free :: xs .free, ∀ j, o < j → j < o + n → z ≠ .page j := by
    rintro z hz j hj hj' rfl
    exact hout j hj hj' ⟨.free, head_free, hz⟩
  have hback : Lists { p with prev := update p.prev (.page (o + n - 1)) (.page (o + k)) } xs := by
    refine h.lists.away (S := (· = .page (o + n - 1)))
      ⟨rfl, fun _ _ => rfl, fun _ _ => rfl, fun _ _ => rfl, fun z hz => update_of_ne hz ..⟩ ?_
    rintro z rfl
    exact hout _ (by omega) (by omega)
  have hself : Ref.page o ≠ .page (o + n - 1) := page_ne (by omega)
  obtain ⟨ys, hrings, hys⟩ := hback.rings.swap head_free hmem (y := .page (o + k)) not_head_page
    fun e' he' hbad => hout _ (by omega) (by omega) (cell_of_mem he' hbad)
  simp only [update_of_ne hself] at hrings
  have hlast : ∀ z, ¬ Seg o n z → z ≠ .page (o + n - 1) ∧ z ≠ .page (o + k) := by
    intro z hz
    refine ⟨?_, ?_⟩ <;> rintro rfl
    · exact hz (hin _ (by omega) (by omega))
    · exact hz (hin _ (by omega) (by omega))
  have hkind : ∀ z, ¬ Head z → z ≠ .page (o + n - 1) → z ≠ .page (o + k) →
      update (update (update p.type (.page (o + n - 1)) .page)
        (.page (o + k)) (p.type (.page o))) (p.next (.page o)) .page z = p.type z := by
    intro z hz hzl hzk
    by_cases hzn : z = p.next (.page o)
    · have hin' := (List.mem_cons.mp hnext.1).resolve_left fun heq => hz (hzn.trans heq ▸ head_free)
      rw [hzn, update_self]
      exact (h.lists.type_eq head_free hin').symm
    · rw [update_of_ne hzn, update_of_ne hzk, update_of_ne hzl]
  refine ⟨_, ys, splitRun_eq (w := n) ?_ (mapped_page (by omega)) (mapped_page (by omega))
    (mapped_page (by omega)) (h.lists.mapped head_free hprev.1) (h.lists.mapped head_free hnext.1) hk hkn
    hprev.2, rfl, ⟨rfl, fun z hz => ?_, fun z hz hz' => ?_, fun z hz hz' => ?_, fun z hz hz' => ?_⟩,
    h.lists.renew rfl hrings ?_ ?_, hys, ?_⟩
  · exact h.word_free hx
  · exact update_of_ne (hlast z hz).2 ..
  · exact hkind z hz' (hlast z hz).1 (hlast z hz).2
  · have hzp : z ≠ p.prev (.page o) := by
      rintro rfl
      exact hz' ⟨.free, head_free, hprev.1⟩
    exact (update_of_ne hzp ..).trans (update_of_ne (hlast z hz).2 ..)
  · have hzn : z ≠ p.next (.page o) := by
      rintro rfl
      exact hz' ⟨.free, head_free, hnext.1⟩
    exact (update_of_ne hzn ..).trans ((update_of_ne (hlast z hz).2 ..).trans
      (update_of_ne (hlast z hz).1 ..))
  · intro e he a ha
    refine hkind a (h.rings.inner e a he ha) ?_ ?_
    · rintro rfl
      exact hout _ (by omega) (by omega) (cell_of_mem he ha)
    · rintro rfl
      exact hout _ (by omega) (by omega) (cell_of_mem he ha)
  · intro a ha
    rcases (hys a).mp ha with rfl | ⟨hold, -⟩
    · refine .inr ⟨o + k, by omega, rfl, ?_⟩
      exact (update_of_ne (hcell _ hnext.1 _ (by omega) (by omega)).symm ..).trans
        ((update_self ..).trans htype)
    · exact .inl hold
  · have hlen : o + k + (n - k) - 1 = o + n - 1 := by omega
    have hnk : Ref.page (o + k) ≠ p.next (.page o) := (hcell _ hnext.1 _ (by omega) (by omega)).symm
    have hnl : Ref.page (o + n - 1) ≠ p.next (.page o) := (hcell _ hnext.1 _ (by omega) (by omega)).symm
    have hlk : 1 < n - k → Ref.page (o + n - 1) ≠ .page (o + k) := fun hlt => page_ne (by omega)
    refine ⟨by omega, ?_, ?_, fun hlt => ?_, fun hlt _ => ?_⟩
    · refine (update_self ..).trans ?_
      rw [hslab]
      exact ofNat_sub hkn.le (by have := h.small; omega)
    · exact (update_of_ne hnk ..).trans ((update_self ..).trans htype)
    · rw [hlen]
      exact ⟨(update_of_ne (hlk hlt) ..).trans (hclosed (by omega)).1,
        (update_of_ne hnl ..).trans ((update_of_ne (hlk hlt) ..).trans (update_self ..))⟩
    · rw [hlen]
      exact (update_of_ne hnl ..).trans ((update_of_ne (hlk hlt) ..).trans
        (update_self ..))

theorem mark_run (hk : 0 < k) (hend : o + k ≤ p.area.count) :
    ∃ p', (do
        let p ← setPage (BitVec.ofNat 64 k ||| pageStart) o p
        setPages busy (o + 1) (k - 1) { p with pfree := p.pfree - k }) = some p' ∧
      p'.pfree = p.pfree - k ∧ Away (Seg o k) p p' ∧ Shows p' o (.busy k) := by
  obtain ⟨p₁, hrun₁, hfree₁, haway₁, hblank₁⟩ := setPage_run (p := p)
    (w := BitVec.ofNat 64 k ||| pageStart) (show o < _ by omega)
  obtain ⟨p₂, hrun₂, hfree₂, haway₂, hblank₂⟩ := setPages_run (p := { p₁ with pfree := p₁.pfree - k })
    (w := busy) (i := o + 1) (n := k - 1) (by change _ ≤ p₁.area.count; rw [haway₁.area]; omega)
  replace haway₂ := haway₂.of_pfree
  have hfirst : Blank p₂ (BitVec.ofNat 64 k ||| pageStart) o := by
    refine hblank₁.congr haway₂ ?_
    rintro ⟨j, hj, hj', -⟩
    cases hj
    omega
  refine ⟨p₂, ?_, ?_, ?_, hk, hfirst.slab, fun i hi hi' => ?_, fun i hi hi' => ?_⟩
  · rw [hrun₁, Option.bind_eq_bind, Option.bind_some, hrun₂]
  · rw [hfree₂, hfree₁]
  · exact (haway₁.mono (seg_of_page le_rfl (by omega))).trans
      (haway₂.mono (Seg.mono (by omega) (by omega)))
  · exact (hblank₂ i (by omega) (by omega)).slab
  · by_cases hio : i = o
    · rw [hio]
      exact ⟨hfirst.next, hfirst.type⟩
    · have hblank := hblank₂ i (by omega) (by omega)
      exact ⟨hblank.next, hblank.type⟩

def taken (k n : ℕ) : List Piece :=
  .busy k :: if k < n then [.free (n - k)] else []

theorem total_taken (hkn : k ≤ n) : total Piece.len (taken k n) = n := by
  unfold taken
  split
  · simp only [total_cons, total_nil, len_busy, len_free]
    omega
  · simp only [total_cons, total_nil, len_busy]
    omega

theorem Inv.detachRun_run (h : Inv p (l ++ [.free n] ++ r) xs) (hk : 0 < k) :
    ∃ p' ys, detachRun (total Piece.len l) k p = some p' ∧ p'.pfree = p.pfree ∧
      Rest (Seg (total Piece.len l) n) xs p p' ∧ Lists p' (update xs .free ys) ∧
      (∀ a, a ∈ ys ↔ k < n ∧ a = .page (total Piece.len l + k) ∨
        a ∈ xs .free ∧ a ≠ .page (total Piece.len l)) ∧
      (k < n → Shows p' (total Piece.len l + k) (.free (n - k))) := by
  have hx : (total Piece.len l, .free n) ∈ placed Piece.len 0 (l ++ [.free n] ++ r) := mem_middle
  have hb := h.bounds hx
  change _ + n ≤ _ ∧ 0 < n at hb
  have hrun : detachRun (total Piece.len l) k p =
      if k < n then splitRun (total Piece.len l) k p else unlink (.page (total Piece.len l)) p := by
    rw [detachRun, read_run (mapped_page (by omega)), Option.bind_eq_bind, Option.bind_some, h.word_free hx]
  rw [hrun]
  by_cases hlt : k < n
  · obtain ⟨p', ys, hrun, hfree, hrest, hlists, hys, hshows⟩ := h.splitRun_run hk hlt
    refine ⟨p', ys, (if_pos hlt).trans hrun, hfree, hrest, hlists, fun a => ?_, fun _ => hshows⟩
    rw [hys a, and_iff_right hlt]
  · obtain ⟨p', ys, hrun, hfree, -, hrest, hlists, hys⟩ := h.lists.unlink_run head_free (h.mem_free hx)
    refine ⟨p', ys, (if_neg hlt).trans hrun, hfree, hrest.mono fun _ => False.elim, hlists, fun a => ?_,
      fun hlt' => absurd hlt' hlt⟩
    rw [hys a, or_iff_right fun hbad => hlt hbad.1]

theorem Inv.takePages_run (h : Inv p (l ++ [.free n] ++ r) xs) (hk : 0 < k) (hkn : k ≤ n) :
    ∃ p' xs', takePages (total Piece.len l) k p = some p' ∧ p'.pfree = p.pfree - k ∧
      Rest (Seg (total Piece.len l) n) xs p p' ∧ Inv p' (l ++ taken k n ++ r) xs' := by
  have hx : (total Piece.len l, .free n) ∈ placed Piece.len 0 (l ++ [.free n] ++ r) := mem_middle
  have hb := (h.bounds hx).1
  change _ + n ≤ _ at hb
  obtain ⟨p₁, ys, hrun₁, hfree₁, hrest₁, hlists₁, hys, hshows₁⟩ := h.detachRun_run hk
  obtain ⟨p₂, hrun₂, hfree₂, haway₂, hshows₂⟩ := mark_run (p := p₁) (o := total Piece.len l) hk
    (by rw [hrest₁.area]; omega)
  have hrest : Rest (Seg (total Piece.len l) n) xs p p₂ :=
    hrest₁.trans (haway₂.mono (Seg.mono le_rfl (by omega))).rest
  -- the pages that are marked are in no list any more
  have hoff : ∀ z, Seg (total Piece.len l) k z → ¬ Cell (update xs .free ys) z := by
    rintro z ⟨j, rfl, hj, hj'⟩ ⟨e, he, hmem⟩
    have hmem := (List.mem_cons.mp hmem).resolve_left fun heq => not_head_page (heq ▸ he)
    by_cases hee : e = .free
    · rw [hee, update_self] at hmem
      rcases (hys _).mp hmem with ⟨-, heq⟩ | ⟨hold, hne⟩
      · injection heq with heq
        omega
      · have hfirst := (h.listed_of_mem hx head_free ⟨hj, show j < _ + n by omega⟩ hold).1
        exact hne (congrArg Ref.page hfirst)
    · rw [update_of_ne hee] at hmem
      exact hee (listed_free.mp (h.listed_of_mem hx he ⟨hj, show j < _ + n by omega⟩ hmem).2)
  refine ⟨p₂, update xs .free ys, ?_, ?_, hrest, h.rebuild ?_ ?_ (hlists₁.away haway₂ hoff) ?_ ?_⟩
  · rw [takePages, hrun₁, Option.bind_eq_bind, Option.bind_some]
    exact hrun₂
  · rw [hfree₂, hfree₁]
  · simpa using hrest
  · rw [total_taken hkn]
    simp
  · intro e he a
    unfold taken
    by_cases hee : e = .free
    · rw [hee, update_self, hys a]
      by_cases hlt : k < n <;> simp [hlt, or_comm]
    · rw [update_of_ne hee]
      by_cases hlt : k < n <;> simp [hlt, hee]
  · intro o' x hx'
    unfold taken at hx'
    rcases List.mem_cons.mp hx' with heq | hx'
    · cases heq
      exact hshows₂
    · split at hx'
      · rename_i hlt
        cases List.mem_singleton.mp hx'
        refine (hshows₁ hlt).away haway₂ ?_
        rintro i hi - ⟨j, heq, -, hj⟩
        cases heq
        change _ + k ≤ i at hi
        omega
      · cases hx'

theorem Inv.length_le (h : Inv p ps xs) : (xs .free).length ≤ p.area.count := by
  have hnodup := (List.nodup_cons.mp (h.rings.ring .free head_free).nodup).2
  have hsub : xs .free ⊆ (List.range p.area.count).map Ref.page := by
    intro a ha
    obtain ⟨i, hi, rfl, -⟩ := h.lists.page .free head_free a ha
    exact List.mem_map_of_mem (List.mem_range.mpr hi)
  have hle := (hnodup.subperm hsub).length_le
  rwa [List.length_map, List.length_range] at hle

def Fits (ps : List Piece) (k : ℕ) : Option ℕ → Prop
  | none => ∀ o n, (o, Piece.free n) ∈ placed Piece.len 0 ps → n < k
  | some i => ∃ n, (i, Piece.free n) ∈ placed Piece.len 0 ps ∧ k ≤ n

theorem Inv.firstFit_path (h : Inv p ps xs) {a : Ref} {ys : List Ref} {fuel : ℕ}
    (hpath : Path p.next p.prev .free a ys) (hys : ∀ y ∈ ys, y ∈ xs .free)
    (hfront : ∀ o n, (o, Piece.free n) ∈ placed Piece.len 0 ps → .page o ∈ ys ∨ n < k)
    (hfuel : ys.length < fuel) : ∃ found, firstFit k p fuel (p.next a) = some found ∧ Fits ps k found := by
  induction ys generalizing a fuel with
  | nil =>
    obtain ⟨fuel, rfl⟩ := Nat.exists_eq_succ_of_ne_zero (Nat.ne_zero_of_lt hfuel)
    refine ⟨none, ?_, fun o n hx => (hfront o n hx).resolve_left List.not_mem_nil⟩
    rw [show p.next a = .free from hpath]
    rfl
  | cons y ys ih =>
    obtain ⟨fuel, rfl⟩ := Nat.exists_eq_succ_of_ne_zero (Nat.ne_zero_of_lt hfuel)
    obtain ⟨hnext, -, hrest⟩ := hpath
    obtain ⟨o, x, hx, hl, rfl⟩ := (h.mem_iff .free head_free y).mp (hys y List.mem_cons_self)
    have hb := h.bounds hx
    obtain ⟨n, rfl⟩ : ∃ n, x = .free n := by
      cases x with
      | free n => exact ⟨n, rfl⟩
      | _ => exact hl.elim
    change o + n ≤ _ ∧ 0 < n at hb
    have hmapped : p.area.mapped (.page o) := mapped_page (by omega)
    rw [hnext, firstFit, read_run hmapped, Option.bind_eq_bind, Option.bind_some, h.word_free hx]
    by_cases hfit : k ≤ n
    · exact ⟨some o, if_pos hfit, n, hx, hfit⟩
    · rw [if_neg hfit, read_run hmapped, Option.bind_eq_bind, Option.bind_some]
      refine ih hrest (fun z hz => hys z (List.mem_cons_of_mem _ hz)) (fun o' n' hx' => ?_)
        (Nat.lt_of_succ_lt_succ hfuel)
      rcases hfront o' n' hx' with hmem | hlt
      · rcases List.mem_cons.mp hmem with heq | hmem
        · cases heq
          have := (placed_common hx hx' (i := o) ⟨le_rfl, by change o < o + n; omega⟩
            ⟨le_rfl, Nat.lt_add_of_pos_right (h.bounds hx').2⟩).2
          cases this
          exact .inr (by omega)
        · exact .inl hmem
      · exact .inr hlt

theorem Inv.firstFit_run (h : Inv p ps xs) (k : ℕ) :
    ∃ found, firstFit k p (p.area.count + 1) (p.next .free) = some found ∧ Fits ps k found :=
  h.firstFit_path (h.rings.ring .free head_free).path (fun _ hy => hy) (fun _ _ hx => .inl (h.mem_free hx))
    (Nat.lt_succ_of_le h.length_le)

theorem Inv.alSlabAllocPages_run (h : Inv p ps xs) (hk : 0 < k) :
    (alSlabAllocPages k p = some (none, p) ∧ ∀ o n, (o, Piece.free n) ∈ placed Piece.len 0 ps → n < k) ∨
    ∃ l n r p' xs', ps = l ++ [.free n] ++ r ∧ k ≤ n ∧
      alSlabAllocPages k p = some (some (total Piece.len l), p') ∧ p'.pfree = p.pfree - k ∧ Only p p' ∧
      Inv p' (l ++ taken k n ++ r) xs' := by
  obtain ⟨found, hrun, hfits⟩ := h.firstFit_run k
  rw [alSlabAllocPages, read_run head_free.mapped, Option.bind_eq_bind, Option.bind_some, hrun,
    Option.bind_eq_bind, Option.bind_some]
  cases found with
  | none => exact .inl ⟨rfl, hfits⟩
  | some i =>
    obtain ⟨n, hx, hkn⟩ := hfits
    obtain ⟨l, r, hps, hi⟩ := mem_placed_iff.mp hx
    rw [Nat.zero_add] at hi
    have hps' : ps = l ++ [.free n] ++ r := by
      rw [hps, List.append_assoc, List.singleton_append]
    rw [hps'] at h
    have hb : total Piece.len l + n ≤ _ := (h.bounds mem_middle).1
    obtain ⟨p', xs', htake, hfree, hrest, hinv⟩ := h.takePages_run hk hkn
    refine .inr ⟨l, n, r, p', xs', hps', hkn, ?_, hfree, h.lists.only hrest fun _ hz => hz.mapped hb, hinv⟩
    rw [hi]
    exact congrArg (Option.bind · _) htake

end Alloc

section Free
variable {p : Pool} {ps l r : List Piece} {xs : Ref → List Ref} {x : Piece} {n : ℕ}

theorem Inv.clearPages_run (h : Inv p (l ++ [x] ++ r) xs)
    (hx : x = .busy n ∨ ∃ s u, x = .chunks s u ∧ ¬ Full s u ∧ n = 1) :
    ∃ p' xs', clearPages (total Piece.len l) n p = some p' ∧ p'.pfree = p.pfree + n ∧ Only p p' ∧
      Inv p' (l ++ [.gap n] ++ r) xs' := by
  generalize hl : total Piece.len l = o
  have hmem : (o, x) ∈ placed Piece.len 0 (l ++ [x] ++ r) := hl ▸ mem_middle
  have hlen : x.len = n := by
    rcases hx with rfl | ⟨s, u, rfl, -, rfl⟩ <;> rfl
  have hb := h.bounds hmem
  rw [hlen] at hb
  have hmapped : p.area.mapped (.page o) := mapped_page (by omega)
  -- the word of the first page
  let p₁ : Pool := { p with
    pfree := p.pfree + n
    slab := update p.slab (.page o) (BitVec.ofNat 64 n) }
  have hlists₁ : Lists p₁ xs := h.lists.congr rfl rfl rfl rfl
  have haway₁ : Away (· = .page o) p p₁ := Away.of_pfree (m := p.pfree + n) away_slab
  -- the other pages
  obtain ⟨p₂, hrun₂, hfree₂, haway₂, hblank₂⟩ := setPages_run (p := p₁) (w := 0) (i := o + 1) (n := n - 1)
    (show _ ≤ p.area.count by omega)
  have hlists₂ : Lists p₂ xs := by
    refine hlists₁.away haway₂ ?_
    rintro z ⟨j, rfl, hj, hj'⟩
    exact h.not_cell hmem ⟨by omega, by omega⟩ (.inl (by omega))
  have hnot : ¬ Seg (o + 1) (n - 1) (.page o) := by
    rintro ⟨j, heq, hj, -⟩
    cases heq
    omega
  have hnext₂ : p₂.next (.page o) = p.next (.page o) := haway₂.next _ hnot
  have hslab₂ : p₂.slab (.page o) = BitVec.ofNat 64 n := (haway₂.slab _ hnot).trans (update_self ..)
  have hrest₂ : Rest (Seg o n) xs p p₂ := ((haway₁.mono (seg_of_page le_rfl (by omega))).trans
    (haway₂.mono (Seg.mono (by omega) (by omega)))).rest
  -- the list
  have hlast : ∃ p₃ xs', (if p₂.next (.page o) ≠ .null then unlink (.page o) p₂ else some p₂) = some p₃ ∧
      p₃.pfree = p₂.pfree ∧ p₃.slab = p₂.slab ∧ Rest (fun _ => False) xs p₂ p₃ ∧ Lists p₃ xs' ∧
      ∀ e, Head e → ∀ a, a ∈ xs' e ↔ a ∈ xs e ∧ ¬ (Listed x e ∧ a = .page o) := by
    rcases hx with rfl | ⟨s, u, rfl, hfull, rfl⟩
    · have hnull := ((h.shows o _ hmem).2.2.2 o le_rfl (by omega)).1
      refine ⟨p₂, xs, if_neg ?_, rfl, rfl, Away.refl.rest, hlists₂, fun e he a => ?_⟩
      · rw [hnext₂, hnull]
        exact not_not_intro rfl
      · simp
    · obtain ⟨hlo, hhi, -⟩ := h.shows o _ hmem
      have he : Head (.slot (s - 6)) := show s - 6 < 6 by omega
      have hl : Listed (.chunks s u) (.slot (s - 6)) := listed_chunks.mpr ⟨⟨hlo, rfl⟩, hfull⟩
      have hin : Ref.page o ∈ xs (.slot (s - 6)) := (h.mem_iff _ he _).mpr ⟨o, _, hmem, hl, rfl⟩
      obtain ⟨p₃, ys, hrun, hfree, hslab, hrest, hlists, hys⟩ := hlists₂.unlink_run he hin
      refine ⟨p₃, _, (if_pos (hlists₂.next_ne_null he hin)).trans hrun, hfree, hslab, hrest, hlists,
        fun e he' a => ?_⟩
      by_cases hee : e = .slot (s - 6)
      · rw [hee, update_self, hys a, and_congr_right fun _ => not_congr (and_iff_right hl)]
      · rw [update_of_ne hee]
        exact (and_iff_left fun hbad => hee (listed_chunks.mp hbad.1).1.2).symm
  obtain ⟨p₃, xs', hrun₃, hfree₃, hslab₃, hrest₃, hlists₃, hmem₃⟩ := hlast
  have hrest : Rest (Seg o n) xs p p₃ := hrest₂.trans (hrest₃.mono fun _ => False.elim)
  refine ⟨p₃, xs', ?_, ?_, h.lists.only hrest fun _ hz => hz.mapped hb.1, h.rebuild ?_ ?_ hlists₃ ?_ ?_⟩
  · have hfirst : Pool.setSlab { p with pfree := p.pfree + n } (.page o) (BitVec.ofNat 64 n) = some p₁ :=
      if_pos hmapped
    have hread : p₂.area.mapped (.page o) := by
      rw [haway₂.area]
      exact hmapped
    rw [clearPages, hfirst, Option.bind_eq_bind, Option.bind_some, hrun₂, Option.bind_eq_bind,
      Option.bind_some, read_run hread]
    exact hrun₃
  · rw [hfree₃, hfree₂]
  · simpa [hl, hlen] using hrest
  · simp [hlen]
  · intro e he a
    simpa [hl] using hmem₃ e he a
  · intro o' y hy
    cases List.mem_singleton.mp hy
    rw [hl]
    refine ⟨hb.2, ?_, fun hlt => ?_⟩
    · rw [hslab₃, hslab₂]
    · have hblank := hblank₂ (o + n - 1) (by omega) (by omega)
      rw [hslab₃, hrest₃.type _ not_false not_head_page]
      exact ⟨hblank.slab, hblank.type⟩

/-- Two neighbours of which one is a free run become one. -/
theorem Inv.absorb_run {y : Piece} {o f : ℕ} (h : Inv p (l ++ [x, y] ++ r) xs) (hl : total Piece.len l = o)
    (hslab : p.slab (.page o) = BitVec.ofNat 64 x.len)
    (hslab' : p.slab (.page (o + x.len)) = BitVec.ofNat 64 y.len) (hclosed : Closed p (o + x.len) y.len)
    (hlead : ∀ e a, Lead o [x, y] e a ↔ e = .free ∧ a = .page f) :
    ∃ p' xs', absorb o f (o + x.len) (p.slab (.page o) + p.slab (.page (o + x.len))) p = some p' ∧
      p'.pfree = p.pfree ∧ Only p p' ∧ Inv p' (l ++ [.gap (x.len + y.len)] ++ r) xs' := by
  have hx : (o, x) ∈ placed Piece.len 0 (l ++ [x, y] ++ r) := by
    rw [mem_placed_append, Nat.zero_add, hl]
    exact .inr (.inl List.mem_cons_self)
  have hy : (o + x.len, y) ∈ placed Piece.len 0 (l ++ [x, y] ++ r) := by
    rw [mem_placed_append, Nat.zero_add, hl]
    exact .inr (.inl (List.mem_cons_of_mem _ List.mem_cons_self))
  have hb := h.bounds hx
  have hb' := h.bounds hy
  have hin : Ref.page f ∈ xs .free := by
    refine (h.mem_iff .free head_free _).mpr ?_
    rw [lead_append, lead_append, Nat.zero_add, hl]
    exact .inl (.inr ((hlead _ _).mpr ⟨rfl, rfl⟩))
  have hmapped : p.area.mapped (.page o) := mapped_page (by omega)
  -- the word of the first page
  let p₁ : Pool := { p with
    slab := update p.slab (.page o) (p.slab (.page o) + p.slab (.page (o + x.len))) }
  have hset : p.setSlab (.page o) (p.slab (.page o) + p.slab (.page (o + x.len))) = some p₁ :=
    if_pos hmapped
  have hlists₁ : Lists p₁ xs := h.lists.congr rfl rfl rfl rfl
  obtain ⟨p₂, ys, hrun₂, hfree₂, hslab₂, hrest₂, hlists₂, hys⟩ := hlists₁.unlink_run head_free hin
  obtain ⟨p₃, hrun₃, hfree₃, haway₃, hblank₃⟩ := setPage_run (p := p₂) (w := 0)
    (show o + x.len < p₂.area.count by rw [hrest₂.area]; change _ < p.area.count; omega)
  have hrest : Rest (Seg o (x.len + y.len)) xs p p₃ :=
    ((away_slab.mono (seg_of_page le_rfl (by omega))).rest.trans (hrest₂.mono fun _ => False.elim)).trans
      (haway₃.mono (seg_of_page (by omega) (by omega))).rest
  refine ⟨p₃, update xs .free ys, ?_, ?_, h.lists.only hrest fun _ hz => hz.mapped (by omega),
    h.rebuild ?_ ?_ (hlists₂.away haway₃ ?_) ?_ ?_⟩
  · simp only [absorb, hset, hrun₂, hrun₃, Option.bind_eq_bind, Option.bind_some]
  · rw [hfree₃, hfree₂]
  · simpa [hl] using hrest
  · simp
  · rintro z rfl hcell
    obtain ⟨⟨e, he, hmem⟩, hne⟩ := cell_unlinked hlists₁ head_free hin hys hcell
    have hmem := (List.mem_cons.mp hmem).resolve_left fun heq => not_head_page (heq ▸ he)
    have hlisted := (h.listed_of_mem hy he ⟨le_rfl, by omega⟩ hmem).2
    exact hne ((hlead e _).mp (lead_cons.mpr (.inr (lead_cons.mpr (.inl ⟨hlisted, rfl⟩))))).2
  · intro e he a
    rw [hl, hlead e a]
    by_cases hee : e = .free
    · rw [hee, update_self, hys a]
      simp
    · rw [update_of_ne hee]
      simp [hee]
  · intro o' y' hy'
    cases List.mem_singleton.mp hy'
    rw [hl]
    have hpage : ∀ j, j ≠ o + x.len → p₃.slab (.page j) = p₁.slab (.page j) ∧
        p₃.type (.page j) = p.type (.page j) := by
      intro j hne
      exact ⟨(haway₃.slab _ (page_ne hne)).trans (congrFun hslab₂ _),
        (haway₃.type _ (page_ne hne)).trans (hrest₂.type _ not_false not_head_page)⟩
    refine ⟨by omega, ?_, fun hlt => ?_⟩
    · rw [(hpage o (by omega)).1]
      refine (update_self ..).trans ?_
      rw [hslab, hslab', BitVec.ofNat_add]
    · by_cases hm : y.len = 1
      · rw [hm, show o + (x.len + 1) - 1 = o + x.len by omega]
        exact ⟨hblank₃.slab, hblank₃.type⟩
      · obtain ⟨hs, ht⟩ := hpage (o + (x.len + y.len) - 1) (by omega)
        have hne : Ref.page (o + (x.len + y.len) - 1) ≠ .page o := page_ne (by omega)
        have hend := hclosed (by omega)
        rw [Nat.add_assoc o] at hend
        rw [hs, ht]
        exact ⟨(update_of_ne hne ..).trans hend.1, hend.2⟩

def StartsFree (ps : List Piece) : Prop :=
  ∃ m t, ps = .free m :: t

theorem kind_type_ne {s : ℕ} : (kind s).type ≠ .page := by
  unfold kind
  split <;> intro h <;> cases h

section Branches
variable {i j pages : ℕ}

theorem joinRight_end (hi : p.area.mapped (.page i)) (hn : (p.slab (.page i)).toNat = n)
    (hend : p.area.count ≤ i + n) : joinRight i pages p = some (pages, p) := by
  simp only [joinRight, read_run hi, hn, Option.bind_eq_bind, Option.bind_some, if_neg hend.not_gt]

theorem joinRight_stay (hi : p.area.mapped (.page i)) (hn : (p.slab (.page i)).toNat = n)
    (hend : i + n < p.area.count) (hno : ¬ (p.type (.page (i + n)) = .page ∧ p.next (.page (i + n)) ≠ .null)) :
    joinRight i pages p = some (pages, p) := by
  simp only [joinRight, read_run hi, read_run (mapped_page hend), hn, Option.bind_eq_bind, Option.bind_some,
    if_pos hend, if_neg hno]

theorem joinRight_join {p' : Pool} (hi : p.area.mapped (.page i)) (hn : (p.slab (.page i)).toNat = n)
    (hend : i + n < p.area.count) (hyes : p.type (.page (i + n)) = .page ∧ p.next (.page (i + n)) ≠ .null)
    (habsorb : absorb i (i + n) (i + n) (p.slab (.page i) + p.slab (.page (i + n))) p = some p') :
    joinRight i pages p = some (pages + (p.slab (.page (i + n))).toNat, p') := by
  simp only [joinRight, read_run hi, read_run (mapped_page hend), hn, Option.bind_eq_bind, Option.bind_some,
    if_pos hend, if_pos hyes, habsorb]

theorem joinLeft_stay (hpos : 0 < i) (hi : p.area.mapped (.page (i - 1)))
    (hno : p.type (.page (i - 1)) = .page → ∃ j, leftOf i p = some (.page j) ∧ p.area.mapped (.page j) ∧
      p.next (.page j) = .null) : joinLeft i pages p = some (i, pages, p) := by
  simp only [joinLeft, if_pos hpos, read_run hi, Option.bind_eq_bind, Option.bind_some]
  by_cases ht : p.type (.page (i - 1)) = .page
  · obtain ⟨j, hleft, hj, hnull⟩ := hno ht
    simp only [if_pos ht, hleft, Option.bind_some, read_run hj, hnull, ne_eq, not_true_eq_false, if_false]
  · rw [if_neg ht]

theorem joinLeft_join {p' : Pool} (hpos : 0 < i) (hi : i < p.area.count)
    (ht : p.type (.page (i - 1)) = .page) (hleft : leftOf i p = some (.page j))
    (hj : p.area.mapped (.page j)) (hnext : p.next (.page j) ≠ .null)
    (habsorb : absorb j j i (p.slab (.page j) + p.slab (.page i)) p = some p') :
    joinLeft i pages p = some (j, pages + (p.slab (.page j)).toNat, p') := by
  simp only [joinLeft, if_pos hpos, read_run (mapped_page hi),
    read_run (mapped_page (show i - 1 < p.area.count by omega)), Option.bind_eq_bind, Option.bind_some,
    if_pos ht, hleft, read_run hj, if_pos hnext, habsorb]

end Branches

theorem Inv.joinRight_run (h : Inv p (l ++ [.gap n] ++ r) xs) (hgap : ∀ m, Piece.gap m ∉ r) :
    ∃ m r' p' xs', joinRight (total Piece.len l) (n - 1) p = some (m - 1, p') ∧ p'.pfree = p.pfree ∧
      Only p p' ∧ Inv p' (l ++ [.gap m] ++ r') xs' ∧
      ((r' = r ∧ m = n ∧ ¬ StartsFree r) ∨ ∃ k, r = .free k :: r' ∧ m = n + k) := by
  generalize hl : total Piece.len l = o
  have hmem : (o, .gap n) ∈ placed Piece.len 0 (l ++ [.gap n] ++ r) := hl ▸ mem_middle
  have hb := h.bounds hmem
  have hsmall := h.small
  rw [len_gap] at hb
  have hslab := (h.shows _ _ hmem).2.1
  have hword : (p.slab (.page o)).toNat = n := by
    rw [hslab]
    exact toNat_ofNat (by omega)
  have hmapped : p.area.mapped (.page o) := mapped_page (by omega)
  cases r with
  | nil =>
    have htiled := h.tiled
    simp only [total_append, total_cons, total_nil, len_gap, hl] at htiled
    refine ⟨n, [], p, xs, joinRight_end hmapped hword (by omega), rfl, .refl, h, .inl ⟨rfl, rfl, ?_⟩⟩
    rintro ⟨m, t, heq⟩
    cases heq
  | cons y t =>
    have hy : (o + n, y) ∈ placed Piece.len 0 (l ++ [.gap n] ++ y :: t) := by
      rw [mem_placed_append, Nat.zero_add, hl]
      exact .inr (.inr (by simp [placed]))
    have hb' := h.bounds hy
    have hend : o + n < p.area.count := by omega
    by_cases hfree : ∃ m, y = .free m
    · obtain ⟨m, rfl⟩ := hfree
      rw [len_free] at hb'
      obtain ⟨-, hslab', htype', hclosed', -⟩ := h.shows _ _ hy
      have hnext := h.lists.next_ne_null head_free (h.mem_free hy)
      have hword' := h.word_free hy
      have hrow : l ++ [.gap n] ++ .free m :: t = l ++ [.gap n, .free m] ++ t := by simp
      rw [hrow] at h
      obtain ⟨p', xs', habsorb, hfree, honly, hinv⟩ := h.absorb_run (f := o + n) hl hslab hslab' hclosed'
        fun e a => by simp
      refine ⟨n + m, t, p', xs', ?_, hfree, honly, hinv, .inr ⟨m, rfl, rfl⟩⟩
      rw [joinRight_join hmapped hword hend ⟨htype', hnext⟩ habsorb, hword',
        show n - 1 + m = n + m - 1 by omega]
    · -- a run in use and a page of chunks stay what they are
      have hno : ¬ (p.type (.page (o + n)) = .page ∧ p.next (.page (o + n)) ≠ .null) := by
        cases y with
        | free m => exact absurd ⟨m, rfl⟩ hfree
        | gap m => exact absurd List.mem_cons_self (hgap m)
        | busy m =>
          have hnull := ((h.shows _ _ hy).2.2.2 (o + n) le_rfl (by simpa using hb'.2)).1
          exact fun hno => hno.2 hnull
        | chunks s u =>
          have htype := (h.shows _ _ hy).2.2.1
          exact fun hno => kind_type_ne (htype.symm.trans hno.1)
      refine ⟨n, y :: t, p, xs, joinRight_stay hmapped hword hend hno, rfl, .refl, h, .inl ⟨rfl, rfl, ?_⟩⟩
      rintro ⟨m, t', heq⟩
      exact hfree ⟨m, (List.cons.inj heq).1⟩

def EndsFree (ps : List Piece) : Prop :=
  ∃ m t, ps = t ++ [.free m]

theorem start_ne_zero {n : ℕ} : BitVec.ofNat 64 n ||| pageStart ≠ 0 := by
  intro heq
  have hbit := congrArg (BitVec.getLsbD · 63) heq
  simp [pageStart] at hbit

theorem Inv.leftOf_free {o m : ℕ} (h : Inv p ps xs) (hx : (o, .free m) ∈ placed Piece.len 0 ps)
    (hend : o + m < p.area.count) : leftOf (o + m) p = some (.page o) := by
  obtain ⟨hpos, hslab, -, hclosed, hback⟩ := h.shows _ _ hx
  have hsmall := h.small
  have hmapped : p.area.mapped (.page (o + m - 1)) := mapped_page (by omega)
  rw [leftOf, read_run hmapped, Option.bind_eq_bind, Option.bind_some]
  by_cases hm : m = 1
  · have hne : p.slab (.page (o + m - 1)) ≠ 0 := by
      rw [hm, Nat.add_sub_cancel, hslab, hm]
      decide
    rw [if_neg hne, hm, Nat.add_sub_cancel]
  · rw [if_pos (hclosed (by omega)).1, read_run hmapped, hback (by omega) hend]

theorem Inv.joinLeft_run (h : Inv p (l ++ [.gap n] ++ r) xs) (hgap : ∀ m, Piece.gap m ∉ l) :
    ∃ m l' p' xs', joinLeft (total Piece.len l) (n - 1) p = some (total Piece.len l', m - 1, p') ∧
      p'.pfree = p.pfree ∧ Only p p' ∧ Inv p' (l' ++ [.gap m] ++ r) xs' ∧
      ((l' = l ∧ m = n ∧ ¬ EndsFree l) ∨ ∃ k, l = l' ++ [.free k] ∧ m = n + k) := by
  rcases List.eq_nil_or_concat l with rfl | ⟨t, y, rfl⟩
  · refine ⟨n, [], p, xs, rfl, rfl, .refl, h, .inl ⟨rfl, rfl, ?_⟩⟩
    rintro ⟨m, t, heq⟩
    cases t <;> cases heq
  · rw [List.concat_eq_append] at h hgap ⊢
    generalize hl : total Piece.len t = o
    have hrow : t ++ [y] ++ [.gap n] ++ r = t ++ [y, .gap n] ++ r := by simp
    have hy : (o, y) ∈ placed Piece.len 0 (t ++ [y] ++ [.gap n] ++ r) := by
      rw [hrow, mem_placed_append, Nat.zero_add, hl]
      exact .inr (.inl List.mem_cons_self)
    have hmem : (o + y.len, .gap n) ∈ placed Piece.len 0 (t ++ [y] ++ [.gap n] ++ r) := by
      rw [hrow, mem_placed_append, Nat.zero_add, hl]
      exact .inr (.inl (List.mem_cons_of_mem _ List.mem_cons_self))
    have hb := h.bounds hy
    have hb' := h.bounds hmem
    rw [len_gap] at hb'
    have hsmall := h.small
    have htotal : total Piece.len (t ++ [y]) = o + y.len := by simp [hl]
    have hmapped : p.area.mapped (.page (o + y.len - 1)) := mapped_page (by omega)
    by_cases hfree : ∃ m, y = .free m
    · obtain ⟨m, rfl⟩ := hfree
      rw [len_free] at hb hb' hmapped htotal hmem
      obtain ⟨-, hslab, htype, hclosed, -⟩ := h.shows _ _ hy
      obtain ⟨-, hslab', hclosed'⟩ := h.shows _ _ hmem
      have hlast : p.type (.page (o + m - 1)) = .page := by
        by_cases hm : m = 1
        · rw [hm, Nat.add_sub_cancel, htype]
        · exact (hclosed (by omega)).2
      have hleft := h.leftOf_free hy (by omega)
      have hnext := h.lists.next_ne_null head_free (h.mem_free hy)
      have hword := h.word_free hy
      rw [hrow] at h
      obtain ⟨p', xs', habsorb, hfree, honly, hinv⟩ := h.absorb_run (f := o) hl hslab hslab' hclosed'
        fun e a => by simp
      refine ⟨n + m, t, p', xs', ?_, hfree, honly, ?_, .inr ⟨m, rfl, rfl⟩⟩
      · rw [htotal, joinLeft_join (by omega) (by omega) hlast hleft (mapped_page (by omega)) hnext habsorb,
          hword, hl, show n - 1 + m = n + m - 1 by omega]
      · rw [Nat.add_comm n m]
        exact hinv
    · -- a run in use and a page of chunks stay what they are
      have hno : p.type (.page (o + y.len - 1)) = .page → ∃ j, leftOf (o + y.len) p = some (.page j) ∧
          p.area.mapped (.page j) ∧ p.next (.page j) = .null := by
        intro hpage
        cases y with
        | free m => exact absurd ⟨m, rfl⟩ hfree
        | gap m => exact absurd (List.mem_append_right _ List.mem_cons_self) (hgap m)
        | busy m =>
          rw [len_busy] at hb hmapped ⊢
          obtain ⟨-, hslab, hbusy, hall⟩ := h.shows _ _ hy
          refine ⟨o + m - 1, ?_, hmapped, (hall _ (by omega) (by omega)).1⟩
          have hne : p.slab (.page (o + m - 1)) ≠ 0 := by
            by_cases hm : m = 1
            · rw [hm, Nat.add_sub_cancel, hslab]
              exact start_ne_zero
            · rw [hbusy _ (by omega) (by omega)]
              decide
          rw [leftOf, read_run hmapped, Option.bind_eq_bind, Option.bind_some, if_neg hne]
        | chunks s u => exact absurd ((h.shows _ _ hy).2.2.1.symm.trans hpage) kind_type_ne
      refine ⟨n, t ++ [y], p, xs, ?_, rfl, .refl, h, .inl ⟨rfl, rfl, ?_⟩⟩
      · rw [htotal]
        exact joinLeft_stay (by omega) hmapped hno
      · rintro ⟨m, t', heq⟩
        exact hfree ⟨m, List.singleton_inj.mp (List.append_inj' heq rfl).2⟩

theorem closeRun_run {o : ℕ} (hn : 0 < n) (hend : o + n ≤ p.area.count) :
    ∃ p', closeRun o (n - 1) p = some p' ∧ p'.pfree = p.pfree ∧ p'.slab = p.slab ∧
      Away (· = .page (o + n - 1)) p p' ∧
      (1 < n → p'.type (.page (o + n - 1)) = .page ∧ p'.prev (.page (o + n - 1)) = .page o) := by
  by_cases hone : n = 1
  · refine ⟨p, ?_, rfl, rfl, .refl, fun hlt => absurd hlt (by omega)⟩
    rw [closeRun, if_neg (by omega)]
  · have hrun : closeRun o (n - 1) p = some { p with
        prev := update p.prev (.page (o + n - 1)) (.page o)
        type := update p.type (.page (o + n - 1)) .page } := by
      rw [closeRun, if_pos (by omega), show o + (n - 1) = o + n - 1 by omega,
        setPrev_run (mapped_page (by omega))]
    exact ⟨_, hrun, rfl, rfl, ⟨rfl, fun _ _ => rfl, fun z hz => update_of_ne hz .., fun _ _ => rfl,
      fun z hz => update_of_ne hz ..⟩, fun _ => ⟨update_self .., update_self ..⟩⟩

theorem Inv.list_run (h : Inv p (l ++ [.gap n] ++ r) xs) :
    ∃ p' xs', (do
        let p ← closeRun (total Piece.len l) (n - 1) p
        push .free .page (.page (total Piece.len l)) p) = some p' ∧ p'.pfree = p.pfree ∧ Only p p' ∧
      Inv p' (l ++ [.free n] ++ r) xs' := by
  generalize hl : total Piece.len l = o
  have hmem : (o, .gap n) ∈ placed Piece.len 0 (l ++ [.gap n] ++ r) := hl ▸ mem_middle
  have hb := h.bounds hmem
  rw [len_gap] at hb
  obtain ⟨-, hslab, hclosed⟩ := h.shows _ _ hmem
  have hoff : ∀ j, o ≤ j → j < o + n → ¬ Cell xs (.page j) := fun j hj hj' =>
    h.not_cell hmem ⟨hj, hj'⟩ (.inr fun e _ hl => hl)
  obtain ⟨p₁, hrun₁, hfree₁, hslab₁, haway₁, hback₁⟩ := closeRun_run hb.2 hb.1
  have hlists₁ : Lists p₁ xs := by
    refine h.lists.away haway₁ ?_
    rintro z rfl
    exact hoff _ (by omega) (by omega)
  obtain ⟨p₂, hrun₂, hfree₂, hslab₂, hrest₂, htype₂, hlists₂⟩ := hlists₁.push_run (i := o) head_free
    (by rw [haway₁.area]; omega) fun e' he' hbad => hoff o le_rfl (by omega) (cell_of_mem he' hbad)
  have hrest : Rest (Seg o n) xs p p₂ := (haway₁.mono (seg_of_page (by omega) (by omega))).rest.trans
    (hrest₂.mono (seg_of_page le_rfl (by omega)))
  refine ⟨p₂, _, ?_, ?_, h.lists.only hrest fun _ hz => hz.mapped hb.1, h.rebuild ?_ ?_ hlists₂ ?_ ?_⟩
  · rw [hrun₁, Option.bind_eq_bind, Option.bind_some]
    exact hrun₂
  · rw [hfree₂, hfree₁]
  · simpa [hl] using hrest
  · simp
  · intro e he a
    by_cases hee : e = .free
    · rw [hee, update_self]
      simp [hl, or_comm]
    · rw [update_of_ne hee]
      simp [hee]
  · intro o' y hy
    cases List.mem_singleton.mp hy
    rw [hl]
    have hne : 1 < n → ¬ Ref.page (o + n - 1) = .page o := fun hlt => page_ne (by omega)
    refine ⟨hb.2, ?_, htype₂, fun hlt => ?_, fun hlt _ => ?_⟩
    · rw [hslab₂, hslab₁, hslab]
    · rw [hslab₂, hslab₁, hrest₂.type _ (hne hlt) not_head_page]
      exact ⟨(hclosed hlt).1, (hback₁ hlt).1⟩
    · rw [hrest₂.prev _ (hne hlt) (hoff _ (by omega) (by omega))]
      exact (hback₁ hlt).2

theorem Inv.alSlabFreePages_run (h : Inv p (l ++ [x] ++ r) xs) (hgap : ∀ m, Piece.gap m ∉ l ++ r)
    (hx : x = .busy n ∨ ∃ s u, x = .chunks s u ∧ ¬ Full s u ∧ n = 1) :
    ∃ l' m r' p' xs', alSlabFreePages (total Piece.len l) n p = some p' ∧ p'.pfree = p.pfree + n ∧
      Only p p' ∧ Inv p' (l' ++ [.free m] ++ r') xs' ∧
      ((l' = l ∧ ¬ EndsFree l) ∨ ∃ k, l = l' ++ [.free k]) ∧
      ((r' = r ∧ ¬ StartsFree r) ∨ ∃ k, r = .free k :: r') := by
  obtain ⟨p₁, xs₁, hrun₁, hfree₁, honly₁, hinv₁⟩ := h.clearPages_run hx
  obtain ⟨m₂, r', p₂, xs₂, hrun₂, hfree₂, honly₂, hinv₂, hright⟩ := hinv₁.joinRight_run
    fun m hm => hgap m (List.mem_append_right _ hm)
  obtain ⟨m₃, l', p₃, xs₃, hrun₃, hfree₃, honly₃, hinv₃, hleft⟩ := hinv₂.joinLeft_run
    fun m hm => hgap m (List.mem_append_left _ hm)
  obtain ⟨p₄, xs₄, hrun₄, hfree₄, honly₄, hinv₄⟩ := hinv₃.list_run
  refine ⟨l', m₃, r', p₄, xs₄, ?_, ?_, ((honly₁.trans honly₂).trans honly₃).trans honly₄, hinv₄, ?_, ?_⟩
  · rw [alSlabFreePages, hrun₁, Option.bind_eq_bind, Option.bind_some, hrun₂, Option.bind_eq_bind,
      Option.bind_some]
    change (joinLeft _ _ _ >>= _) = _
    rw [hrun₃, Option.bind_eq_bind, Option.bind_some]
    exact hrun₄
  · rw [hfree₄, hfree₃, hfree₂, hfree₁]
  · exact hleft.imp (fun hl => ⟨hl.1, hl.2.2⟩) fun ⟨k, hk, _⟩ => ⟨k, hk⟩
  · exact hright.imp (fun hr => ⟨hr.1, hr.2.2⟩) fun ⟨k, hk, _⟩ => ⟨k, hk⟩

end Free

end Aware.Slab
