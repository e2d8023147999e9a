import Aware.Lib.Runs
import Aware.Slab.Blocks

/-!
# Runs of a pool

What holds of the live blocks in every state that a pool comes to: they lie in the page area and apart
from each other, nothing is written into them, the free pages and theirs are all pages, and when there is
none left the page area is one run again.
-/
namespace Aware.Slab
open Linked Tiling

def Block.extent (b : Block) : ℕ × ℕ :=
  (b.addr, capacity b.size)

def heapInit (base len : ℕ) (bytes : ℕ → UInt8) : Heap :=
  ⟨alSlabInit base len, bytes, []⟩

def Allowed (h : Heap) : Op → Prop
  | .free addr => ∃ b ∈ h.live, b.addr = addr
  | _ => True

instance (h : Heap) : (op : Op) → Decidable (Allowed h op)
  | .free addr => inferInstanceAs (Decidable (∃ b ∈ h.live, b.addr = addr))
  | .alloc _ => .isTrue trivial
  | .calloc _ => .isTrue trivial

def onPage (start i : ℕ) (b : ℕ × ℕ) : Bool :=
  decide (b.1 < start + pageSize * (i + 1) ∧ start + pageSize * i < b.1 + b.2)

def Heap.held (h : Heap) : ℕ :=
  (List.range h.pool.area.count).countP fun i =>
    h.live.any fun b => onPage h.pool.area.start i b.extent

def Untouched (h h' : Heap) (b : Block) : Prop :=
  (∀ a, b.addr ≤ a → a < b.addr + capacity b.size → h'.bytes a = h.bytes a) ∧
  ∀ r : Ref, ¬ Clear b.extent (r.addr h.pool.area.base, 24) →
    h'.pool.slab r = h.pool.slab r ∧ h'.pool.next r = h.pool.next r ∧ h'.pool.prev r = h.pool.prev r ∧
      h'.pool.type r = h.pool.type r

structure Safe (h : Heap) : Prop where
  inside : ∀ b ∈ h.live, h.pool.area.start ≤ b.addr ∧
    b.addr + capacity b.size ≤ h.pool.area.start + pageSize * h.pool.area.count
  apart : h.live.Pairwise fun b c => Clear b.extent c.extent
  large : ∀ b ∈ h.live, b.size ≤ capacity b.size
  untouched : ∀ op h', Allowed h op → step h op = some h' → ∀ b ∈ h.live, Untouched h h' b
  counted : h.pool.pfree + h.held = h.pool.area.count
  whole : h.live = [] → ∃ a p', alSlabAllocLocked (pageSize * h.pool.area.count) h.pool = some (some a, p')

section Layout
variable {a : Area} {r : Ref}

theorem Area.Ok.mapped_below (h : a.Ok) (hr : a.mapped r) : r.addr a.base + 24 ≤ a.start := by
  have hheader := h.header
  cases r with
  | null => cases hr
  | free =>
    change a.base + 40 + 24 ≤ _
    omega
  | slot i =>
    have hi : i < 6 := of_decide_eq_true hr
    change a.base + 128 + 24 * i + 24 ≤ _
    omega
  | page i =>
    have hi : i < a.count := of_decide_eq_true hr
    change a.base + 464 + 24 * i + 24 ≤ _
    omega

theorem areaOf_ok {base len : ℕ} (hroom : 0 < (areaOf base len).count) (hend : base + len ≤ 2 ^ 64) :
    (areaOf base len).Ok := by
  simp only [areaOf, pageSize] at hroom ⊢
  constructor
  all_goals simp only [pageSize]; omega

end Layout

section Init
variable {base len : ℕ}

def listsInit (r : Ref) : List Ref :=
  if r = .free then [.page 0] else []

theorem listsInit_rings :
    Rings Head (alSlabInit base len).next (alSlabInit base len).prev listsInit := by
  refine ⟨fun e he => ?_, fun e e' a _ _ ha ha' => ?_, fun e a _ ha => ?_⟩
  · cases e with
    | free => exact ⟨by simp [listsInit], rfl, rfl, rfl⟩
    | slot k => exact ⟨by simp [listsInit], rfl⟩
    | null => exact he.elim
    | page i => exact he.elim
  · by_cases hee : e = .free <;> by_cases hee' : e' = .free <;> simp_all [listsInit]
  · by_cases hee : e = .free
    · rw [listsInit, if_pos hee] at ha
      rw [List.mem_singleton.mp ha]
      exact not_head_page
    · rw [listsInit, if_neg hee] at ha
      cases ha

theorem alSlabInit_keeps (hroom : 0 < (areaOf base len).count) (hend : base + len ≤ 2 ^ 64) :
    Keeps (alSlabInit base len) [.free (areaOf base len).count] := by
  have hok := areaOf_ok hroom hend
  refine ⟨⟨listsInit, hok.small, ?_, listsInit_rings, fun e he a => ?_, fun o x hx => ?_⟩, ⟨?_, ?_⟩, ?_⟩
  · simp [alSlabInit]
  · by_cases hee : e = .free <;> simp [listsInit, hee]
  · cases List.mem_singleton.mp hx
    refine ⟨hroom, rfl, rfl, fun hlt => ⟨?_, rfl⟩, fun _ hbad => absurd hbad ?_⟩
    · have hne : Ref.page (0 + (areaOf base len).count - 1) ≠ .page 0 := fun heq => by
        have := page_injective heq
        omega
      exact if_neg hne
    · rw [Nat.zero_add]
      exact lt_irrefl _
  · intro x hx
    cases List.mem_singleton.mp hx
    trivial
  · exact List.isChain_singleton _
  · simp [alSlabInit, vacant_cons, Piece.isFree]

end Init

section Steps
variable {h h' : Heap} {ps : List Piece}

structure Sound (h : Heap) (ps : List Piece) : Prop where
  ok : h.pool.area.Ok
  keeps : Keeps h.pool ps
  live : (h.live.map Block.extent).Perm (blocksAt h.pool.area.start 0 ps)

theorem heapInit_sound {base len : ℕ} {bytes : ℕ → UInt8} (hroom : 0 < (areaOf base len).count)
    (hend : base + len ≤ 2 ^ 64) : Sound (heapInit base len bytes) [.free (areaOf base len).count] :=
  ⟨areaOf_ok hroom hend, alSlabInit_keeps hroom hend, .refl _⟩

variable {b : Block}

theorem Sound.mem (hs : Sound h ps) (hb : b ∈ h.live) :
    b.extent ∈ blocksAt h.pool.area.start 0 ps :=
  hs.live.mem_iff.mp (List.mem_map_of_mem hb)

theorem Sound.inside (hs : Sound h ps) (hb : b ∈ h.live) : h.pool.area.start ≤ b.addr ∧
    b.addr + capacity b.size ≤ h.pool.area.start + pageSize * h.pool.area.count := by
  obtain ⟨xs, hinv⟩ := hs.keeps.inv
  obtain ⟨hlo, hhi, -⟩ := hinv.block_inside (hs.mem hb)
  exact ⟨hlo, hhi⟩

theorem Sound.apart (hs : Sound h ps) : h.live.Pairwise fun b c => Clear b.extent c.extent := by
  obtain ⟨xs, hinv⟩ := hs.keeps.inv
  exact List.pairwise_map.mp ((hs.live.pairwise_iff Clear.symm).mpr hinv.blocks_apart)

theorem Sound.untouched (hs : Sound h ps) (honly : Only h.pool h'.pool) (hb : b ∈ h.live)
    (hbytes : ∀ a, b.addr ≤ a → a < b.addr + capacity b.size → h'.bytes a = h.bytes a) :
    Untouched h h' b := by
  refine ⟨hbytes, fun r hr => ?_⟩
  have hmapped : ¬ h.pool.area.mapped r := by
    intro hmapped
    have hbelow := hs.ok.mapped_below hmapped
    exact hr (.inr (hbelow.trans (hs.inside hb).1))
  exact ⟨honly.slab r hmapped, honly.next r hmapped, honly.prev r hmapped, honly.type r hmapped⟩

theorem Sound.request (hs : Sound h ps) (size : ℕ) :
    ∃ found p' ps', alSlabAllocLocked size h.pool = some (found, p') ∧ Only h.pool p' ∧
      ∀ bytes, Sound ⟨p', bytes, found.elim h.live fun a => ⟨a, size⟩ :: h.live⟩ ps' := by
  rcases hs.keeps.alSlabAllocLocked_run size with ⟨hrun, -⟩ | ⟨a, p', ps', hrun, honly, hkeeps, hperm⟩
  · exact ⟨none, h.pool, ps, hrun, .refl, fun _ => ⟨hs.ok, hs.keeps, hs.live⟩⟩
  · refine ⟨some a, p', ps', hrun, honly, fun _ => ⟨?_, hkeeps, ?_⟩⟩
    · change p'.area.Ok
      rw [honly.area]
      exact hs.ok
    · change (_ :: h.live.map Block.extent).Perm (blocksAt p'.area.start 0 ps')
      rw [honly.area]
      exact (hs.live.cons _).trans hperm.symm

theorem alSlabAlloc_eq {size : ℕ} {found : Option ℕ} {p' : Pool}
    (hrun : alSlabAllocLocked size h.pool = some (found, p')) :
    alSlabAlloc size h = some ⟨p', h.bytes, found.elim h.live fun a => ⟨a, size⟩ :: h.live⟩ := by
  rw [alSlabAlloc, hrun]
  cases found <;> rfl

theorem alSlabCalloc_eq {size : ℕ} {found : Option ℕ} {p' : Pool}
    (hrun : alSlabAllocLocked size h.pool = some (found, p')) :
    alSlabCalloc size h = some ⟨p', found.elim h.bytes fun a => zeroed h.bytes ⟨a, size⟩,
      found.elim h.live fun a => ⟨a, size⟩ :: h.live⟩ := by
  rw [alSlabCalloc, hrun]
  cases found <;> rfl

theorem Sound.step_run (hs : Sound h ps) {op : Op} (hop : Allowed h op) :
    ∃ h' ps', step h op = some h' ∧ Sound h' ps' ∧ ∀ b ∈ h.live, Untouched h h' b := by
  cases op with
  | alloc size =>
    obtain ⟨found, p', ps', hrun, honly, hsound⟩ := hs.request size
    exact ⟨_, ps', alSlabAlloc_eq hrun, hsound _, fun b hb => hs.untouched honly hb fun _ _ _ => rfl⟩
  | calloc size =>
    obtain ⟨found, p', ps', hrun, honly, hsound⟩ := hs.request size
    refine ⟨_, ps', alSlabCalloc_eq hrun, hsound _, fun b hb => hs.untouched honly hb fun a hlo hhi => ?_⟩
    cases found with
    | none => rfl
    | some c =>
      -- the new block is none of the live ones
      have hclear := (List.pairwise_cons.mp (hsound h.bytes).apart).1 b hb
      have hsize := le_capacity size
      refine if_neg fun hin => ?_
      dsimp only at hin
      rcases hclear with hclear | hclear
      · change c + capacity size ≤ b.addr at hclear
        omega
      · change b.addr + capacity b.size ≤ c at hclear
        omega
  | free addr =>
    obtain ⟨b, hb, hbaddr⟩ := hop
    obtain ⟨c, l₁, l₂, -, hc, hlive, herase⟩ := List.exists_of_eraseP hb (p := fun b => b.addr = addr)
      (by simpa using hbaddr)
    have hcaddr : c.addr = addr := by simpa using hc
    have hcmem : c ∈ h.live := by
      rw [hlive]
      exact List.mem_append_right _ List.mem_cons_self
    obtain ⟨p', ps', hrun, honly, hkeeps, hperm⟩ := hs.keeps.alSlabFreeLocked_run hs.ok (hs.mem hcmem)
    change alSlabFreeLocked c.addr h.pool = some p' at hrun
    rw [hcaddr] at hrun
    refine ⟨⟨p', h.bytes, l₁ ++ l₂⟩, ps', ?_, ⟨?_, hkeeps, ?_⟩, fun b hb =>
      hs.untouched honly hb fun _ _ _ => rfl⟩
    · change alSlabFree addr h = _
      rw [alSlabFree, hrun, Option.bind_eq_bind, Option.bind_some, herase]
    · change p'.area.Ok
      rw [honly.area]
      exact hs.ok
    · change ((l₁ ++ l₂).map Block.extent).Perm (blocksAt p'.area.start 0 ps')
      rw [honly.area]
      have hold := hs.live
      rw [hlive] at hold
      have hmiddle : ((l₁ ++ c :: l₂).map Block.extent).Perm (c.extent :: (l₁ ++ l₂).map Block.extent) :=
        List.perm_middle.map Block.extent
      exact (hmiddle.symm.trans (hold.trans hperm)).cons_inv

end Steps

section Pages
variable {h : Heap} {ps : List Piece}
variable {x : Piece} {o : ℕ} {p : Pool}

theorem mem_blocksAt_of {start : ℕ} {b : ℕ × ℕ} (hx : (o, x) ∈ placed Piece.len 0 ps)
    (hb : b ∈ x.blocks start o) : b ∈ blocksAt start 0 ps :=
  List.mem_flatMap.mpr ⟨(o, x), hx, hb⟩

theorem Piece.Whole.exists_block {i : ℕ} (hw : x.Whole) (hs : Shows p o x) (hfree : ¬ x.isFree)
    (start : ℕ) (hi : o ≤ i) (hi' : i < o + x.len) : ∃ b ∈ x.blocks start o, onPage start i b := by
  cases x with
  | free n => exact absurd rfl hfree
  | gap n => exact hw.elim
  | busy n =>
    refine ⟨_, List.mem_singleton_self _, decide_eq_true ?_⟩
    simp only [len_busy, pageSize] at hi' ⊢
    omega
  | chunks s u =>
    obtain ⟨j, hj, huj⟩ := hw
    have hmem : (start + pageSize * o + j * 2 ^ s, 2 ^ s) ∈ (Piece.chunks s u).blocks start o :=
      List.mem_map.mpr ⟨j, List.mem_filter.mpr ⟨List.mem_range.mpr hj, huj⟩, rfl⟩
    obtain ⟨hlo, hhi, hpos⟩ := mem_blocks hs hmem
    refine ⟨_, hmem, decide_eq_true ?_⟩
    rw [len_chunks] at hi' hhi
    obtain rfl : i = o := by omega
    simp only [pageSize] at *
    omega

theorem Keeps.onPage_iff {i start : ℕ} (hk : Keeps p ps)
    (hx : (o, x) ∈ placed Piece.len 0 ps) (hi : o ≤ i) (hi' : i < o + x.len) :
    (blocksAt start 0 ps).any (onPage start i) = !x.isFree := by
  obtain ⟨xs, hinv⟩ := hk.inv
  have hshows := hinv.shows o x hx
  cases hfree : x.isFree with
  | false =>
    have hmem : x ∈ ps := by
      obtain ⟨l, r, rfl, -⟩ := mem_placed_iff.mp hx
      exact List.mem_append_right _ List.mem_cons_self
    obtain ⟨b, hb, hon⟩ := (hk.settled.whole x hmem).exists_block hshows (by simp [hfree]) start hi hi'
    exact List.any_eq_true.mpr ⟨b, mem_blocksAt_of hx hb, hon⟩
  | true =>
    refine List.any_eq_false.mpr fun b hb hon => ?_
    obtain ⟨⟨o', y⟩, hy, hmem⟩ := List.mem_flatMap.mp hb
    obtain ⟨hlo, hhi, -⟩ := mem_blocks (hinv.shows o' y hy) hmem
    have hon := of_decide_eq_true hon
    rcases placed_apart hx hy with ⟨-, rfl⟩ | hlt | hlt
    · cases x with
      | free n => cases hmem
      | _ => cases hfree
    · simp only [pageSize] at *
      omega
    · simp only [pageSize] at *
      omega

theorem Sound.counted (hs : Sound h ps) : h.pool.pfree + h.held = h.pool.area.count := by
  obtain ⟨xs, hinv⟩ := hs.keeps.inv
  have hany : ∀ i, (h.live.any fun b => onPage h.pool.area.start i b.extent) =
      (blocksAt h.pool.area.start 0 ps).any (onPage h.pool.area.start i) := by
    intro i
    rw [← hs.live.any_eq, List.any_map]
    rfl
  have hheld : h.held = total Piece.len (ps.filter fun x => !x.isFree) := by
    rw [Heap.held, ← hinv.tiled, List.range_eq_range']
    refine countP_covered fun o x hx i hi hi' => ?_
    rw [hany i, hs.keeps.onPage_iff hx hi hi']
  rw [hs.keeps.pfree, hheld, ← hinv.tiled]
  exact total_filter_add Piece.isFree ps

theorem Keeps.one_run {start : ℕ} (hk : Keeps p ps) (hcount : 0 < p.area.count)
    (hnone : blocksAt start 0 ps = []) : ps = [.free p.area.count] := by
  obtain ⟨xs, hinv⟩ := hk.inv
  have hall : ∀ x ∈ ps, x.isFree := by
    intro x hx
    by_contra hfree
    obtain ⟨l, r, rfl⟩ := List.append_of_mem hx
    have hplaced : (total Piece.len l, x) ∈ placed Piece.len 0 (l ++ x :: r) :=
      mem_placed_iff.mpr ⟨l, r, rfl, (Nat.zero_add _).symm⟩
    have hpos := (hinv.bounds hplaced).2
    obtain ⟨b, hb, -⟩ := (hk.settled.whole x hx).exists_block (hinv.shows _ _ hplaced) hfree start
      le_rfl (Nat.lt_add_of_pos_right hpos)
    have hmem := mem_blocksAt_of hplaced hb
    rw [hnone] at hmem
    cases hmem
  have htiled := hinv.tiled
  have hapart := hk.settled.apart
  -- two runs next to each other would be one
  cases ps with
  | nil =>
    rw [total_nil] at htiled
    omega
  | cons x ps =>
    cases ps with
    | nil =>
      have hx := hall x List.mem_cons_self
      cases x with
      | free n =>
        rw [total_cons, total_nil, len_free, Nat.add_zero] at htiled
        rw [htiled]
      | _ => cases hx
    | cons y ps =>
      refine absurd ⟨hall x List.mem_cons_self, hall y ?_⟩ (List.isChain_cons_cons.mp hapart).1
      exact List.mem_cons_of_mem _ List.mem_cons_self

theorem Sound.whole (hs : Sound h ps) (hlive : h.live = []) :
    ∃ a p', alSlabAllocLocked (pageSize * h.pool.area.count) h.pool = some (some a, p') := by
  have hcount := hs.ok.room
  have hnone : blocksAt h.pool.area.start 0 ps = [] := by
    have hperm := hs.live
    rw [hlive] at hperm
    exact hperm.symm.eq_nil
  rcases hs.keeps.alSlabAllocLocked_run (pageSize * h.pool.area.count) with
    ⟨-, hfail⟩ | ⟨a, p', ps', hrun, -⟩
  · have hlarge : maxSize < pageSize * h.pool.area.count := by
      simp only [maxSize, pageSize]
      omega
    have hpages : pagesOf (pageSize * h.pool.area.count) = h.pool.area.count := by
      rw [pagesOf, Nat.mul_div_cancel_left _ (by decide), Nat.mul_mod_right, if_pos rfl, Nat.add_zero]
    have hlt := hfail hlarge h.pool.area.count
      (hs.keeps.one_run hcount hnone ▸ List.mem_singleton_self _)
    omega
  · exact ⟨a, p', hrun⟩

theorem Sound.safe (hs : Sound h ps) : Safe h where
  inside _ hb := hs.inside hb
  apart := hs.apart
  large b _ := le_capacity b.size
  untouched op h' hop hrun := by
    obtain ⟨h₁, ps', hrun₁, -, huntouched⟩ := hs.step_run hop
    cases hrun.symm.trans hrun₁
    exact huntouched
  counted := hs.counted
  whole := hs.whole

end Pages

/-- In every run of requests and of frees of live blocks, no operation fails, and every state is
safe. -/
theorem live_blocks_kept {base len : ℕ} {bytes : ℕ → UInt8} {ops : List Op}
    (hroom : 0 < (areaOf base len).count) (hend : base + len ≤ 2 ^ 64)
    (hops : Runs.Guarded step Allowed (heapInit base len bytes) ops) :
    Runs.Along step Safe (heapInit base len bytes) ops := by
  have hsafe : ∀ h, (∃ ps, Sound h ps) → Safe h := by
    rintro h ⟨ps, hs⟩
    exact hs.safe
  have hstep : ∀ h op, (∃ ps, Sound h ps) → Allowed h op → ∃ h', step h op = some h' ∧ ∃ ps, Sound h' ps := by
    rintro h op ⟨ps, hs⟩ hop
    obtain ⟨h', ps', hrun, hs', -⟩ := hs.step_run hop
    exact ⟨h', hrun, ps', hs'⟩
  exact Runs.Along.of_guarded hsafe hstep ⟨_, heapInit_sound hroom hend⟩ hops

theorem mixed_blocks_kept : Runs.Along step Safe (heapInit 4096 24576 fun _ => 0)
    [.alloc 40, .calloc 300, .alloc 4097, .free 8192, .free 16384, .alloc 64, .free 12288, .free 16384] :=
  live_blocks_kept (by decide) (by decide) (by decide +kernel)

end Aware.Slab
