import Mathlib.Tactic.IntervalCases
import Aware.Slab.Pages

/-!
# Pages of chunks

What taking and giving back a chunk does to the word of its page and to the row of pieces.
-/
namespace Aware.Slab
open Function Linked Tiling

section Words
variable {s j : ℕ} {u : ℕ → Bool} {w : BitVec 64}

theorem kind_limit (hlo : 6 ≤ s) (hhi : s < 12) : (kind s).limit = 2 ^ (12 - s) := by
  interval_cases s <;> rfl

theorem kind_room (hlo : 6 ≤ s) (hhi : s < 12) : (kind s).off + (kind s).limit ≤ 64 := by
  interval_cases s <;> decide

theorem kind_mask (hlo : 6 ≤ s) (hhi : s < 12) :
    ∀ b < 64, (kind s).mask.getLsbD b = decide ((kind s).off ≤ b) := by
  interval_cases s <;> decide +kernel

theorem kind_full (hlo : 6 ≤ s) (hhi : s < 12) : ∀ b < 64, (kind s).full.getLsbD b =
    decide ((kind s).off ≤ b ∧ b < (kind s).off + (kind s).limit) := by
  interval_cases s <;> decide +kernel

theorem kind_first (hlo : 6 ≤ s) (hhi : s < 12) : Bits s (fun j => decide (j = 0)) (kind s).first := by
  unfold Bits
  interval_cases s <;> decide +kernel

theorem getLsbD_one_shiftLeft {i b : ℕ} (hb : b < 64) : (1#64 <<< i).getLsbD b = decide (b = i) := by
  rw [← BitVec.twoPow_eq, BitVec.getLsbD_twoPow]
  by_cases hbi : b = i
  · rw [← hbi, decide_eq_true hb, Bool.true_and]
  · rw [decide_eq_false hbi, decide_eq_false (Ne.symm hbi), Bool.and_false]

theorem wordBit_off (hj : j < (kind s).limit) : wordBit s u ((kind s).off + j) = u j := by
  rw [wordBit, if_neg (by omega), decide_eq_true (by omega), Bool.true_and, Nat.add_sub_cancel_left]

theorem Bits.get (h : Bits s u w) (hlo : 6 ≤ s) (hhi : s < 12) (hj : j < (kind s).limit) :
    w.getLsbD ((kind s).off + j) = u j := by
  have hroom := kind_room hlo hhi
  rw [h _ (by omega), wordBit_off hj]

theorem wordBit_update {v : Bool} {b : ℕ} (hj : j < (kind s).limit) :
    wordBit s (update u j v) b = if b = (kind s).off + j then v else wordBit s u b := by
  by_cases hb : b = (kind s).off + j
  · rw [if_pos hb, hb, wordBit_off hj, update_self]
  · rw [if_neg hb, wordBit, wordBit]
    by_cases hlow : b < (kind s).off
    · rw [if_pos hlow, if_pos hlow]
    · rw [if_neg hlow, if_neg hlow, update_of_ne (by omega)]

theorem Bits.set (h : Bits s u w) (hj : j < (kind s).limit) :
    Bits s (update u j true) (w ||| 1#64 <<< ((kind s).off + j)) := by
  intro b hb
  rw [BitVec.getLsbD_or, getLsbD_one_shiftLeft hb, wordBit_update hj, h b hb]
  by_cases hbj : b = (kind s).off + j <;> simp [hbj]

theorem Bits.clear (h : Bits s u w) (hj : j < (kind s).limit) :
    Bits s (update u j false) (w &&& ~~~(1#64 <<< ((kind s).off + j))) := by
  intro b hb
  rw [BitVec.getLsbD_and, BitVec.getLsbD_not, getLsbD_one_shiftLeft hb, wordBit_update hj, h b hb]
  by_cases hbj : b = (kind s).off + j <;> simp [hbj, hb]

theorem Bits.masked (h : Bits s u w) (hlo : 6 ≤ s) (hhi : s < 12) {v : BitVec 64} {c : Bool}
    (hv : ∀ b < 64, v.getLsbD b =
      (decide ((kind s).off ≤ b ∧ b < (kind s).off + (kind s).limit) && c)) :
    w &&& (kind s).mask = v ↔ ∀ j < (kind s).limit, u j = c := by
  have hroom := kind_room hlo hhi
  constructor
  · intro heq j hj
    have hbit := congrArg (BitVec.getLsbD · ((kind s).off + j)) heq
    simp only [BitVec.getLsbD_and] at hbit
    rw [h.get hlo hhi hj, kind_mask hlo hhi _ (by omega), hv _ (by omega), decide_eq_true (by omega),
      decide_eq_true (by omega), Bool.and_true, Bool.true_and] at hbit
    exact hbit
  · intro hall
    apply BitVec.eq_of_getLsbD_eq
    intro b hb
    rw [BitVec.getLsbD_and, h b hb, kind_mask hlo hhi b hb, hv b hb]
    by_cases hin : (kind s).off ≤ b ∧ b < (kind s).off + (kind s).limit
    · obtain ⟨j, rfl⟩ := Nat.exists_eq_add_of_le hin.1
      rw [wordBit_off (by omega), hall j (by omega), decide_eq_true hin.1, decide_eq_true hin, Bool.and_true,
        Bool.true_and]
    · rw [decide_eq_false hin, Bool.false_and, wordBit]
      by_cases hlow : b < (kind s).off
      · rw [decide_eq_false (show ¬ (kind s).off ≤ b by omega), Bool.and_false]
      · rw [if_neg hlow, decide_eq_false (show ¬ b < (kind s).off + (kind s).limit by omega), Bool.false_and,
          Bool.false_and]

theorem Bits.full_iff (h : Bits s u w) (hlo : 6 ≤ s) (hhi : s < 12) :
    w &&& (kind s).mask = (kind s).full ↔ Full s u :=
  h.masked hlo hhi fun b hb => by rw [kind_full hlo hhi b hb, Bool.and_true]

theorem Bits.empty_iff (h : Bits s u w) (hlo : 6 ≤ s) (hhi : s < 12) :
    w &&& (kind s).mask = 0 ↔ ∀ j < (kind s).limit, u j = false :=
  h.masked hlo hhi fun b _ => by rw [Bool.and_false]; exact BitVec.getLsbD_zero

theorem Bits.shift (h : Bits s u w) (hlo : 6 < s) (hhi : s < 12) : (w &&& shiftMask).toNat = s := by
  have hoff : (kind s).off = 32 := by
    rw [kind, if_neg (by omega)]
    rfl
  have heq : w &&& shiftMask = BitVec.ofNat 64 s &&& shiftMask := by
    apply BitVec.eq_of_getLsbD_eq
    intro b hb
    rw [BitVec.getLsbD_and, BitVec.getLsbD_and, h b hb, wordBit, hoff]
    by_cases hlow : b < 32
    · rw [if_pos hlow]
    · have hmask : shiftMask.getLsbD b = false := by
        have : ∀ b < 64, ¬ b < 32 → shiftMask.getLsbD b = false := by decide +kernel
        exact this b hb hlow
      rw [hmask, Bool.and_false, Bool.and_false]
  rw [heq]
  interval_cases s <;> rfl

theorem Bits.firstFree_run (h : Bits s u w) (hlo : 6 ≤ s) (hhi : s < 12) (hfull : ¬ Full s u) :
    ∃ j < (kind s).limit, u j = false ∧ firstFree (kind s) w = some j := by
  cases hfind : firstFree (kind s) w with
  | some j =>
    have hj : j < (kind s).limit := List.mem_range.mp (List.mem_of_find?_eq_some hfind)
    have hbit := List.find?_some hfind
    rw [h.get hlo hhi hj] at hbit
    exact ⟨j, hj, by simpa using hbit, rfl⟩
  | none =>
    refine absurd (fun j hj => ?_) hfull
    have hbit := List.find?_eq_none.mp hfind j (List.mem_range.mpr hj)
    rw [h.get hlo hhi hj] at hbit
    simpa using hbit

theorem not_full_update (hj : j < (kind s).limit) : ¬ Full s (update u j false) := by
  intro hfull
  have := hfull j hj
  rw [update_self] at this
  cases this

end Words

section Pieces
variable {p : Pool} {ps l r : List Piece} {xs : Ref → List Ref} {s j : ℕ} {u : ℕ → Bool}

theorem head_slot (hlo : 6 ≤ s) (hhi : s < 12) : Head (.slot (s - 6)) :=
  show s - 6 < 6 by omega

theorem headType_slot (hlo : 6 ≤ s) : headType (.slot (s - 6)) = (kind s).type := by
  rw [headType, Nat.sub_add_cancel hlo]

theorem Inv.rechunk {p' : Pool} {xs' : Ref → List Ref} {u' : ℕ → Bool} {o : ℕ}
    (h : Inv p (l ++ [.chunks s u] ++ r) xs) (hl : total Piece.len l = o) (hlists : Lists p' xs')
    (hrest : Rest (Seg o 1) xs p p') (htype : p'.type (.page o) = (kind s).type)
    (hbits : Bits s u' (p'.slab (.page o))) (hnext : Full s u' → p'.next (.page o) = .null)
    (hother : ∀ e, e ≠ .slot (s - 6) → xs' e = xs e)
    (hmem : ∀ a, a ∈ xs' (.slot (s - 6)) ↔
      a ∈ xs (.slot (s - 6)) ∧ a ≠ .page o ∨ ¬ Full s u' ∧ a = .page o) :
    Inv p' (l ++ [.chunks s u'] ++ r) xs' := by
  have hx : (o, .chunks s u) ∈ placed Piece.len 0 (l ++ [.chunks s u] ++ r) := hl ▸ mem_middle
  obtain ⟨hlo, hhi, -⟩ := h.shows _ _ hx
  refine h.rebuild ?_ rfl hlists (fun e he a => ?_) fun o' y hy => ?_
  · simpa [hl] using hrest
  · simp only [lead_cons, lead_nil, or_false, listed_chunks, hl]
    by_cases hee : e = .slot (s - 6)
    · rw [hee, hmem a]
      -- a page without a free chunk was not listed
      have hold : a ∈ xs (.slot (s - 6)) → Full s u → a ≠ .page o := by
        rintro ha hfull rfl
        have hl := (h.listed_of_mem hx (head_slot hlo hhi) ⟨le_rfl, Nat.lt_succ_self o⟩ ha).2
        exact (listed_chunks.mp hl).2 hfull
      by_cases hfull : Full s u
      · simp only [hlo, hfull, true_and, not_true_eq_false, false_and, not_false_eq_true, and_true]
        exact or_congr_left (and_iff_left_of_imp fun ha => hold ha hfull)
      · simp [hlo, hfull]
    · rw [hother e hee]
      simp [hee]
  · cases List.mem_singleton.mp hy
    rw [hl]
    exact ⟨hlo, hhi, htype, hbits, hnext⟩

theorem Inv.mem_slot {o : ℕ} (h : Inv p ps xs) (hx : (o, .chunks s u) ∈ placed Piece.len 0 ps)
    (hfull : ¬ Full s u) : Ref.page o ∈ xs (.slot (s - 6)) := by
  obtain ⟨hlo, hhi, -⟩ := h.shows _ _ hx
  exact (h.mem_iff _ (head_slot hlo hhi) _).mpr ⟨o, _, hx, listed_chunks.mpr ⟨⟨hlo, rfl⟩, hfull⟩, rfl⟩

theorem Inv.takeChunk_run (h : Inv p (l ++ [.chunks s u] ++ r) xs) (hfull : ¬ Full s u)
    (hj : j < (kind s).limit) :
    ∃ p' xs', takeChunk (kind s) (total Piece.len l) j p = some p' ∧ p'.pfree = p.pfree ∧ Only p p' ∧
      Inv p' (l ++ [.chunks s (update u j true)] ++ r) xs' := by
  generalize hl : total Piece.len l = o
  have hx : (o, .chunks s u) ∈ placed Piece.len 0 (l ++ [.chunks s u] ++ r) := hl ▸ mem_middle
  have hb := h.bounds hx
  rw [len_chunks] at hb
  obtain ⟨hlo, hhi, htype, hbits, -⟩ := h.shows _ _ hx
  have hin := h.mem_slot hx hfull
  have he := head_slot hlo hhi
  have hbits' := hbits.set hj
  have hmapped : p.area.mapped (.page o) := mapped_page (by omega)
  generalize hw : p.slab (.page o) ||| 1#64 <<< ((kind s).off + j) = w at hbits'
  let p₁ : Pool := { p with slab := update p.slab (.page o) w }
  have hset : p.setSlab (.page o) w = some p₁ := if_pos hmapped
  have haway₁ : Away (· = .page o) p p₁ := away_slab
  have hlists₁ : Lists p₁ xs := h.lists.congr rfl rfl rfl rfl
  have hpage : ∀ z, z = Ref.page o → Seg o 1 z := seg_of_page le_rfl (Nat.lt_succ_self o)
  have hrun : takeChunk (kind s) o j p = if w &&& (kind s).mask = (kind s).full then
      (unlink (.page o) p₁).bind fun p => (p.setNext (.page o) .null).bind fun p =>
        p.setPrev (.page o) .null (kind s).type
      else some p₁ := by
    simp only [takeChunk, read_run hmapped, hw, hset, Option.bind_eq_bind, Option.bind_some]
  rw [hrun]
  by_cases hfull' : Full s (update u j true)
  · -- the last chunk: the page leaves its list
    obtain ⟨p₂, ys, hrun₂, hfree₂, hslab₂, hrest₂, hlists₂, hys⟩ := hlists₁.unlink_run he hin
    have hmapped₂ : p₂.area.mapped (.page o) := by
      rw [hrest₂.area]
      exact hmapped
    let p₃ : Pool := { p₂ with
      next := update p₂.next (.page o) .null
      prev := update p₂.prev (.page o) .null
      type := update p₂.type (.page o) (kind s).type }
    have hlast : ((p₂.setNext (.page o) .null).bind fun p => p.setPrev (.page o) .null (kind s).type) =
        some p₃ := by
      simp only [Pool.setNext, Pool.setPrev, Pool.write, hmapped₂, if_true, Option.bind_some]
      rfl
    have haway₃ : Away (· = .page o) p₂ p₃ :=
      ⟨rfl, fun _ _ => rfl, fun z hz => update_of_ne hz .., fun z hz => update_of_ne hz ..,
        fun z hz => update_of_ne hz ..⟩
    have hrest : Rest (Seg o 1) xs p p₃ :=
      ((haway₁.mono hpage).rest.trans (hrest₂.mono fun _ => False.elim)).trans (haway₃.mono hpage).rest
    have hlists₃ : Lists p₃ (update xs (.slot (s - 6)) ys) := by
      refine hlists₂.away haway₃ ?_
      rintro z rfl hcell
      exact (cell_unlinked hlists₁ he hin hys hcell).2 rfl
    refine ⟨p₃, update xs (.slot (s - 6)) ys, ?_, hfree₂,
      h.lists.only hrest fun _ hz => hz.mapped (by omega),
      h.rechunk hl hlists₃ hrest (update_self ..) ?_ (fun _ => update_self ..)
        (fun e hee => update_of_ne hee ..) fun a => ?_⟩
    · rw [if_pos ((hbits'.full_iff hlo hhi).mpr hfull'), hrun₂, Option.bind_some, hlast]
    · rw [show p₃.slab (.page o) = w from (congrFun hslab₂ _).trans (update_self ..)]
      exact hbits'
    · rw [update_self, hys a, or_iff_left fun hbad => hbad.1 hfull']
  · have hrest : Rest (Seg o 1) xs p p₁ := (haway₁.mono hpage).rest
    refine ⟨p₁, xs, ?_, rfl, h.lists.only hrest fun _ hz => hz.mapped (by omega),
      h.rechunk hl hlists₁ hrest htype ?_ (fun hbad => absurd hbad hfull') (fun _ _ => rfl) fun a => ?_⟩
    · rw [if_neg fun hbad => hfull' ((hbits'.full_iff hlo hhi).mp hbad)]
    · rw [show p₁.slab (.page o) = w from update_self ..]
      exact hbits'
    · by_cases ha : a = .page o
      · simp [ha, hin, hfull']
      · simp [ha]

theorem Inv.relist_run {o : ℕ} {full : Bool} (h : Inv p (l ++ [.chunks s u] ++ r) xs)
    (hl : total Piece.len l = o) (hfull : full = true ↔ Full s u) :
    ∃ p' xs', relist (kind s) (s - 6) full o p = some p' ∧ p'.pfree = p.pfree ∧ p'.slab = p.slab ∧
      Rest (Seg o 1) xs p p' ∧ p'.type (.page o) = (kind s).type ∧ Lists p' xs' ∧
      (∀ e, e ≠ .slot (s - 6) → xs' e = xs e) ∧
      ∀ a, a ∈ xs' (.slot (s - 6)) ↔ a ∈ xs (.slot (s - 6)) ∧ a ≠ .page o ∨ a = .page o := by
  have hx : (o, .chunks s u) ∈ placed Piece.len 0 (l ++ [.chunks s u] ++ r) := hl ▸ mem_middle
  have hb := h.bounds hx
  rw [len_chunks] at hb
  obtain ⟨hlo, hhi, htype, -, -⟩ := h.shows _ _ hx
  by_cases hf : Full s u
  · obtain ⟨p', hrun, hfree, hslab, hrest, htype', hlists⟩ := h.lists.push_run (i := o) (head_slot hlo hhi)
      (by omega) fun e' he' hbad =>
        (listed_chunks.mp (h.listed_of_mem hx he' ⟨le_rfl, Nat.lt_succ_self o⟩ hbad).2).2 hf
    rw [headType_slot hlo] at hrun htype'
    refine ⟨p', _, (if_pos (hfull.mpr hf)).trans hrun, hfree, hslab,
      hrest.mono (seg_of_page le_rfl (Nat.lt_succ_self o)), htype', hlists,
      fun e hee => update_of_ne hee .., fun a => ?_⟩
    rw [update_self, List.mem_cons]
    by_cases ha : a = .page o <;> simp [ha]
  · refine ⟨p, xs, if_neg fun hbad => hf (hfull.mp hbad), rfl, rfl, Away.refl.rest, htype, h.lists,
      fun _ _ => rfl, fun a => ?_⟩
    by_cases ha : a = .page o
    · simp [ha, h.mem_slot hx hf]
    · simp [ha]

theorem Inv.clearChunk_run {full : Bool} (h : Inv p (l ++ [.chunks s u] ++ r) xs)
    (hfull : full = true ↔ Full s u) (hj : j < (kind s).limit) :
    ∃ p' xs', clearChunk (kind s) (s - 6) full (total Piece.len l)
        (p.slab (.page (total Piece.len l)) &&& ~~~(1#64 <<< ((kind s).off + j))) p = some p' ∧
      p'.pfree = p.pfree ∧ Only p p' ∧
      Inv p' (l ++ [.chunks s (update u j false)] ++ r) xs' := by
  generalize hl : total Piece.len l = o
  have hx : (o, .chunks s u) ∈ placed Piece.len 0 (l ++ [.chunks s u] ++ r) := hl ▸ mem_middle
  have hb := h.bounds hx
  rw [len_chunks] at hb
  have hbits' := (h.shows _ _ hx).2.2.2.1.clear hj
  generalize p.slab (.page o) &&& ~~~(1#64 <<< ((kind s).off + j)) = w at hbits'
  obtain ⟨p₁, xs₁, hrun₁, hfree₁, hslab₁, hrest₁, htype₁, hlists₁, hother₁, hmem₁⟩ := h.relist_run hl hfull
  let p₂ : Pool := { p₁ with slab := update p₁.slab (.page o) w }
  have hset : p₁.setSlab (.page o) w = some p₂ := if_pos (by rw [hrest₁.area]; exact mapped_page (by omega))
  have hrest : Rest (Seg o 1) xs p p₂ :=
    hrest₁.trans (away_slab.mono (seg_of_page le_rfl (Nat.lt_succ_self o))).rest
  have hnot : ¬ Full s (update u j false) := not_full_update hj
  refine ⟨p₂, xs₁, ?_, hfree₁, h.lists.only hrest fun _ hz => hz.mapped (by omega),
    h.rechunk hl (hlists₁.congr rfl rfl rfl rfl) hrest htype₁ ?_ (fun hbad => absurd hbad hnot) hother₁
      fun a => ?_⟩
  · rw [clearChunk, hrun₁, Option.bind_eq_bind, Option.bind_some, hset]
  · rw [show p₂.slab (.page o) = w from update_self ..]
    exact hbits'
  · rw [hmem₁ a, and_iff_right hnot]

theorem Inv.install_run (h : Inv p (l ++ [.busy 1] ++ r) xs) (hlo : 6 ≤ s) (hhi : s < 12)
    (hempty : xs (.slot (s - 6)) = []) :
    ∃ p' xs', install (kind s) (s - 6) (total Piece.len l) p = some p' ∧ p'.pfree = p.pfree ∧ Only p p' ∧
      Inv p' (l ++ [.chunks s fun j => decide (j = 0)] ++ r) xs' := by
  generalize hl : total Piece.len l = o
  have hx : (o, .busy 1) ∈ placed Piece.len 0 (l ++ [.busy 1] ++ r) := hl ▸ mem_middle
  have hb := h.bounds hx
  rw [len_busy] at hb
  have he := head_slot hlo hhi
  have hmapped : p.area.mapped (.page o) := mapped_page (by omega)
  have hmapped' : p.area.mapped (.slot (s - 6)) := he.mapped
  have hoff : ∀ e', Head e' → Ref.page o ∉ xs e' := fun e' he' hbad =>
    (h.listed_of_mem hx he' ⟨le_rfl, Nat.lt_succ_self o⟩ hbad).2
  have hself : p.next (.slot (s - 6)) = .slot (s - 6) := by
    rw [h.rings.next_head he, hempty]
    rfl
  let p₁ : Pool := { p with
    slab := update p.slab (.page o) (kind s).first
    next := update (update p.next (.page o) (.slot (s - 6))) (.slot (s - 6)) (.page o)
    prev := update p.prev (.page o) (.slot (s - 6))
    type := update p.type (.page o) (kind s).type }
  have hrun : install (kind s) (s - 6) o p = some p₁ := by
    simp only [install, Pool.setSlab, Pool.setNext, Pool.setPrev, Pool.write, hmapped, hmapped', if_true,
      Option.bind_eq_bind, Option.bind_some]
    rfl
  have hrings : Rings Head p₁.next p₁.prev (update xs (.slot (s - 6)) [.page o]) := by
    have hpush := h.rings.push he not_head_page hoff
    rw [hself, hempty] at hpush
    -- the code leaves `prev` of the head as it was
    refine hpush.congr (fun _ _ _ _ => rfl) fun e' he' z hz => ?_
    have hne : z ≠ .slot (s - 6) := by
      rintro rfl
      exact hpush.inner e' _ he' hz he
    exact (update_of_ne hne ..).symm
  have htype : ∀ e', Head e' → ∀ a ∈ xs e', p₁.type a = p.type a := by
    intro e' he' a ha
    refine update_of_ne ?_ ..
    rintro rfl
    exact hoff e' he' ha
  have hlists : Lists p₁ (update xs (.slot (s - 6)) [.page o]) := by
    refine h.lists.renew rfl hrings htype ?_
    intro a ha
    refine .inr ⟨o, by omega, List.mem_singleton.mp ha, ?_⟩
    rw [List.mem_singleton.mp ha, headType_slot hlo]
    exact update_self ..
  have hrest : Rest (Seg o 1) xs p p₁ := by
    have hne : ∀ z, ¬ Seg o 1 z → z ≠ .page o := by
      rintro z hz rfl
      exact hz ⟨o, rfl, le_rfl, Nat.lt_succ_self o⟩
    refine ⟨rfl, fun z hz => update_of_ne (hne z hz) .., fun z hz _ =>
      update_of_ne (hne z hz) .., fun z hz hcell => ?_, fun z hz _ =>
      update_of_ne (hne z hz) ..⟩
    have hslot : z ≠ .slot (s - 6) := by
      rintro rfl
      exact hcell he.cell
    exact (update_of_ne hslot ..).trans (update_of_ne (hne z hz) ..)
  have hnot : ¬ Full s fun j => decide (j = 0) := by
    intro hfull
    have hlimit : 1 < (kind s).limit := by
      rw [kind_limit hlo hhi]
      exact Nat.one_lt_two_pow (by omega)
    have hone := hfull 1 hlimit
    simp at hone
  refine ⟨p₁, _, hrun, rfl, h.lists.only hrest fun _ hz => hz.mapped hb.1,
    h.rebuild ?_ rfl hlists (fun e he' a => ?_) fun o' y hy => ?_⟩
  · simpa [hl] using hrest
  · by_cases hee : e = .slot (s - 6)
    · rw [hee, update_self, hempty]
      simp [hl, hlo, hnot]
    · rw [update_of_ne hee]
      simp [hee]
  · cases List.mem_singleton.mp hy
    rw [hl]
    refine ⟨hlo, hhi, update_self .., ?_, fun hbad => absurd hbad hnot⟩
    rw [show p₁.slab (.page o) = (kind s).first from update_self ..]
    exact kind_first hlo hhi

end Pieces

end Aware.Slab
