import Mathlib.Data.List.Chain
import Aware.Slab.Chunks

/-!
# The blocks of a pool

The blocks that the pieces hold, where they lie, and what taking and giving back a block does to them.
-/
namespace Aware.Slab
open Function Linked Tiling

def capacity (size : ℕ) : ℕ :=
  if maxSize < size then pageSize * pagesOf size else 2 ^ shiftOf size

def Piece.blocks (start o : ℕ) : Piece → List (ℕ × ℕ)
  | .busy n => [(start + pageSize * o, pageSize * n)]
  | .chunks s u => ((List.range (kind s).limit).filter u).map fun j =>
    (start + pageSize * o + j * 2 ^ s, 2 ^ s)
  | _ => []

def blocksAt (start o : ℕ) (ps : List Piece) : List (ℕ × ℕ) :=
  (placed Piece.len o ps).flatMap fun q => q.2.blocks start q.1

def Piece.isFree : Piece → Bool
  | .free _ => true
  | _ => false

def vacant (ps : List Piece) : ℕ :=
  total Piece.len (ps.filter Piece.isFree)

def Piece.Whole : Piece → Prop
  | .gap _ => False
  | .chunks s u => ∃ j < (kind s).limit, u j = true
  | _ => True

/-- The row between two operations: neighbouring free runs are one run. -/
structure Settled (ps : List Piece) : Prop where
  whole : ∀ x ∈ ps, x.Whole
  apart : ps.IsChain fun x y => ¬ (x.isFree ∧ y.isFree)

structure Area.Ok (a : Area) : Prop where
  room : 0 < a.count
  small : a.count < 2 ^ 62
  aligned : a.start % pageSize = 0
  header : a.base + 464 + 24 * a.count ≤ a.start
  inside : a.start + pageSize * a.count ≤ a.limit

section Lists
variable {start o : ℕ} {ps l r ys ys' : List Piece} {x : Piece} {b : ℕ × ℕ}

@[simp] theorem blocksAt_nil : blocksAt start o [] = [] := rfl

@[simp] theorem blocksAt_cons :
    blocksAt start o (x :: ps) = x.blocks start o ++ blocksAt start (o + x.len) ps := rfl

theorem blocksAt_append : blocksAt start o (ys ++ ys') =
    blocksAt start o ys ++ blocksAt start (o + total Piece.len ys) ys' := by
  simp only [blocksAt, placed_append, List.flatMap_append]

@[simp] theorem vacant_nil : vacant [] = 0 := rfl

@[simp] theorem vacant_append : vacant (ys ++ ys') = vacant ys + vacant ys' := by
  simp only [vacant, List.filter_append, total_append]

theorem vacant_cons : vacant (x :: ps) = (if x.isFree then x.len else 0) + vacant ps := by
  unfold vacant
  by_cases hx : x.isFree
  · rw [List.filter_cons_of_pos hx, total_cons, if_pos hx]
  · rw [List.filter_cons_of_neg hx, if_neg hx, Nat.zero_add]

theorem blocks_exchange (hlen : total Piece.len ys' = total Piece.len ys)
    (h : (blocksAt start (total Piece.len l) ys').Perm (b :: blocksAt start (total Piece.len l) ys)) :
    (blocksAt start 0 (l ++ ys' ++ r)).Perm (b :: blocksAt start 0 (l ++ ys ++ r)) := by
  simp only [blocksAt_append, Nat.zero_add, hlen, List.append_assoc]
  refine ((h.append_right _).append_left _).trans ?_
  exact List.perm_middle

theorem filter_update_perm {u : ℕ → Bool} {j m : ℕ} (hj : j < m) (hu : u j = false) :
    ((List.range m).filter (update u j true)).Perm (j :: (List.range m).filter u) := by
  have hnodup : ∀ v : ℕ → Bool, ((List.range m).filter v).Nodup := fun v => List.nodup_range.filter v
  refine (List.perm_ext_iff_of_nodup (hnodup _) (List.nodup_cons.mpr ⟨?_, hnodup u⟩)).mpr fun i => ?_
  · simp [hu]
  · by_cases hij : i = j
    · simp [hij, hj]
    · simp [hij]

end Lists

section Places
variable {start : ℕ} {ps l r : List Piece} {p : Pool} {xs : Ref → List Ref} {x : Piece}
variable {b : ℕ × ℕ}

theorem mem_blocks {o : ℕ} (hx : Shows p o x) (hb : b ∈ x.blocks start o) :
    start + pageSize * o ≤ b.1 ∧ b.1 + b.2 ≤ start + pageSize * (o + x.len) ∧ 0 < b.2 := by
  cases x with
  | free n => cases hb
  | gap n => cases hb
  | busy n =>
    cases List.mem_singleton.mp hb
    have hpos := hx.1
    simp only [len_busy, pageSize]
    omega
  | chunks s u =>
    obtain ⟨j, hj, rfl⟩ := List.mem_map.mp hb
    obtain ⟨hlo, hhi, -⟩ := hx
    have hj := List.mem_range.mp (List.mem_filter.mp hj).1
    rw [kind_limit hlo hhi] at hj
    have hpage : 2 ^ (12 - s) * 2 ^ s = pageSize := by
      rw [← pow_add, show 12 - s + s = 12 by omega]
      rfl
    have hle : (j + 1) * 2 ^ s ≤ 2 ^ (12 - s) * 2 ^ s := Nat.mul_le_mul_right _ hj
    rw [hpage, Nat.add_mul] at hle
    simp only [len_chunks, pageSize] at hle ⊢
    exact ⟨by omega, by omega, Nat.two_pow_pos s⟩

def Clear (b c : ℕ × ℕ) : Prop :=
  b.1 + b.2 ≤ c.1 ∨ c.1 + c.2 ≤ b.1

theorem Clear.symm {c : ℕ × ℕ} (h : Clear b c) : Clear c b :=
  Or.symm h

theorem blocks_clear (o : ℕ) : (x.blocks start o).Pairwise Clear := by
  cases x with
  | free n => exact .nil
  | gap n => exact .nil
  | busy n => exact List.pairwise_singleton ..
  | chunks s u =>
    refine List.pairwise_map.mpr ((List.pairwise_lt_range.filter u).imp fun {i j} hij => .inl ?_)
    have hle : (i + 1) * 2 ^ s ≤ j * 2 ^ s := Nat.mul_le_mul_right _ hij
    rw [Nat.add_mul] at hle
    dsimp only
    omega

theorem mem_blocksAt (hb : b ∈ blocksAt start 0 ps) :
    ∃ l x r, ps = l ++ [x] ++ r ∧ b ∈ x.blocks start (total Piece.len l) := by
  obtain ⟨⟨o, x⟩, hx, hmem⟩ := List.mem_flatMap.mp hb
  obtain ⟨l, r, hps, ho⟩ := mem_placed_iff.mp hx
  rw [Nat.zero_add] at ho
  refine ⟨l, x, r, ?_, ho ▸ hmem⟩
  rw [hps, List.append_assoc, List.singleton_append]

theorem Inv.block_inside (h : Inv p ps xs) (hb : b ∈ blocksAt start 0 ps) :
    start ≤ b.1 ∧ b.1 + b.2 ≤ start + pageSize * p.area.count ∧ 0 < b.2 := by
  obtain ⟨l, x, r, rfl, hmem⟩ := mem_blocksAt hb
  have hbounds := (h.bounds mem_middle).1
  obtain ⟨hlo, hhi, hpos⟩ := mem_blocks (h.shows _ _ mem_middle) hmem
  have hle := Nat.mul_le_mul_left pageSize hbounds
  exact ⟨by omega, by omega, hpos⟩

theorem Inv.blocks_apart (h : Inv p ps xs) : (blocksAt start 0 ps).Pairwise Clear := by
  refine List.pairwise_flatMap.mpr ⟨fun q _ => blocks_clear q.1, ?_⟩
  have hshows := h.shows
  clear h
  generalize 0 = o at hshows ⊢
  induction ps generalizing o with
  | nil => exact .nil
  | cons x ps ih =>
    refine List.pairwise_cons.mpr ⟨?_, ih _ fun o' y hy => hshows o' y (List.mem_cons_of_mem _ hy)⟩
    intro q hq b hb c hc
    have hb := mem_blocks (hshows o x List.mem_cons_self) hb
    have hc := mem_blocks (hshows q.1 q.2 (List.mem_cons_of_mem _ hq)) hc
    have hle := Nat.mul_le_mul_left pageSize (placed_bounds (show (q.1, q.2) ∈ _ from hq)).1
    exact .inl (by omega)

end Places

section Settling
variable {ps l l' r r' : List Piece} {x y : Piece} {m n : ℕ}

theorem chain_middle {α : Type*} {R : α → α → Prop} {a : α} {l r : List α} :
    (l ++ [a] ++ r).IsChain R ↔
      l.IsChain R ∧ r.IsChain R ∧ (∀ b ∈ l.getLast?, R b a) ∧ ∀ b ∈ r.head?, R a b := by
  rw [List.append_assoc, List.isChain_append, List.singleton_append, List.isChain_cons]
  simp only [List.head?_cons, Option.mem_some_iff, forall_eq']
  tauto

theorem Settled.exchange (h : Settled (l ++ [x] ++ r)) (hy : ¬ y.isFree) (hw : y.Whole) :
    Settled (l ++ [y] ++ r) := by
  obtain ⟨hl, hr, -, -⟩ := chain_middle.mp h.apart
  refine ⟨fun z hz => ?_, chain_middle.mpr ⟨hl, hr, fun _ _ hbad => hy hbad.2, fun _ _ hbad => hy hbad.1⟩⟩
  simp only [List.mem_append, List.mem_singleton] at hz
  rcases hz with (hz | rfl) | hz
  · exact h.whole z (by simp [hz])
  · exact hw
  · exact h.whole z (by simp [hz])

theorem Settled.split (h : Settled (l ++ [.free n] ++ r)) (hy : ¬ y.isFree) (hw : y.Whole) :
    Settled (l ++ (y :: if m < n then [.free (n - m)] else []) ++ r) := by
  split
  · have hfront := h.exchange hy hw
    obtain ⟨hl, hr, hlast, -⟩ := chain_middle.mp hfront.apart
    obtain ⟨-, -, -, hhead⟩ := chain_middle.mp h.apart
    refine ⟨fun z hz => ?_, ?_⟩
    · simp only [List.mem_append, List.mem_cons, List.not_mem_nil, or_false] at hz
      rcases hz with (hz | rfl | rfl) | hz
      · exact h.whole z (by simp [hz])
      · exact hw
      · exact trivial
      · exact h.whole z (by simp [hz])
    · have hrow : l ++ [y, .free (n - m)] ++ r = l ++ [y] ++ (.free (n - m) :: r) := by simp
      rw [hrow]
      refine chain_middle.mpr ⟨hl, List.isChain_cons.mpr ⟨hhead, hr⟩, hlast, fun z hz hbad => hy hbad.1⟩
  · exact h.exchange hy hw

theorem Settled.joined (h : Settled (l ++ [x] ++ r))
    (hleft : (l' = l ∧ ¬ EndsFree l) ∨ ∃ k, l = l' ++ [.free k])
    (hright : (r' = r ∧ ¬ StartsFree r) ∨ ∃ k, r = .free k :: r') :
    Settled (l' ++ [.free m] ++ r') := by
  obtain ⟨hl, hr, -, -⟩ := chain_middle.mp h.apart
  have hl' : l'.IsChain (fun x y => ¬ (x.isFree ∧ y.isFree)) ∧ ∀ z ∈ l'.getLast?, ¬ z.isFree := by
    rcases hleft with ⟨rfl, hend⟩ | ⟨k, rfl⟩
    · refine ⟨hl, fun z hz hbad => hend ?_⟩
      obtain ⟨t, rfl⟩ := List.getLast?_eq_some_iff.mp hz
      cases z with
      | free k => exact ⟨k, t, rfl⟩
      | _ => cases hbad
    · obtain ⟨hl', -, hlast⟩ := List.isChain_append.mp hl
      exact ⟨hl', fun z hz hbad => hlast z hz (.free k) rfl ⟨hbad, rfl⟩⟩
  have hr' : r'.IsChain (fun x y => ¬ (x.isFree ∧ y.isFree)) ∧ ∀ z ∈ r'.head?, ¬ z.isFree := by
    rcases hright with ⟨rfl, hstart⟩ | ⟨k, rfl⟩
    · refine ⟨hr, fun z hz hbad => hstart ?_⟩
      obtain ⟨t, rfl⟩ := List.head?_eq_some_iff.mp hz
      cases z with
      | free k => exact ⟨k, t, rfl⟩
      | _ => cases hbad
    · obtain ⟨hhead, hr'⟩ := List.isChain_cons.mp hr
      exact ⟨hr', fun z hz hbad => hhead z hz ⟨rfl, hbad⟩⟩
  have hsub : ∀ z, z ∈ l' ∨ z ∈ r' → z ∈ l ++ [x] ++ r := by
    intro z hz
    simp only [List.mem_append]
    rcases hz with hz | hz
    · refine .inl (.inl ?_)
      rcases hleft with ⟨rfl, -⟩ | ⟨k, rfl⟩
      · exact hz
      · exact List.mem_append_left _ hz
    · refine .inr ?_
      rcases hright with ⟨rfl, -⟩ | ⟨k, rfl⟩
      · exact hz
      · exact List.mem_cons_of_mem _ hz
  refine ⟨fun z hz => ?_, chain_middle.mpr ⟨hl'.1, hr'.1, fun z hz hbad => hl'.2 z hz hbad.1,
    fun z hz hbad => hr'.2 z hz hbad.2⟩⟩
  simp only [List.mem_append, List.mem_singleton] at hz
  rcases hz with (hz | rfl) | hz
  · exact h.whole z (hsub z (.inl hz))
  · trivial
  · exact h.whole z (hsub z (.inr hz))

theorem Settled.no_gap (h : Settled (l ++ [x] ++ r)) (m : ℕ) : Piece.gap m ∉ l ++ r := by
  intro hmem
  refine h.whole (.gap m) ?_
  rw [List.append_assoc, List.mem_append]
  exact (List.mem_append.mp hmem).imp_right (List.mem_append_right _)

end Settling

structure Keeps (p : Pool) (ps : List Piece) : Prop where
  inv : ∃ xs, Inv p ps xs
  settled : Settled ps
  pfree : p.pfree = vacant ps

section Alloc
variable {p : Pool} {ps : List Piece} {k size : ℕ}

theorem blocks_taken {start o n : ℕ} : blocksAt start o (taken k n) = [(start + pageSize * o, pageSize * k)] := by
  unfold taken
  split <;> simp [Piece.blocks]

theorem vacant_taken {n : ℕ} (hkn : k ≤ n) : vacant (taken k n) + k = n := by
  unfold taken
  split <;> simp [vacant_cons, Piece.isFree]
  · omega
  · omega

theorem Keeps.alSlabAllocPages_run (h : Keeps p ps) (hk : 0 < k) (start : ℕ) :
    (alSlabAllocPages k p = some (none, p) ∧ ∀ n, .free n ∈ ps → n < k) ∨
    ∃ i p' ps', alSlabAllocPages k p = some (some i, p') ∧ Only p p' ∧ Keeps p' ps' ∧
      (blocksAt start 0 ps').Perm ((start + pageSize * i, pageSize * k) :: blocksAt start 0 ps) := by
  obtain ⟨xs, hinv⟩ := h.inv
  rcases hinv.alSlabAllocPages_run hk with ⟨hrun, hnone⟩ | ⟨l, n, r, p', xs', rfl, hkn, hrun, hfree, honly, hinv'⟩
  · refine .inl ⟨hrun, fun n hn => ?_⟩
    obtain ⟨l, r, rfl⟩ := List.append_of_mem hn
    exact hnone _ n (mem_placed_iff.mpr ⟨l, r, rfl, rfl⟩)
  · refine .inr ⟨_, p', _, hrun, honly, ⟨⟨xs', hinv'⟩, h.settled.split Bool.false_ne_true trivial, ?_⟩, ?_⟩
    · rw [hfree, h.pfree]
      have := vacant_taken hkn
      simp only [vacant_append, vacant_cons, vacant_nil, Piece.isFree, if_true, len_free]
      omega
    · refine blocks_exchange ?_ ?_
      · rw [total_taken hkn]
        simp
      · rw [blocks_taken]
        simp [Piece.blocks]

theorem Keeps.newChunk_run {s : ℕ} {xs : Ref → List Ref} (h : Keeps p ps) (hinv : Inv p ps xs) (hlo : 6 ≤ s)
    (hhi : s < 12) (hempty : xs (.slot (s - 6)) = []) :
    newChunk (kind s) (s - 6) p = some (none, p) ∨
    ∃ a p' ps', newChunk (kind s) (s - 6) p = some (some a, p') ∧ Only p p' ∧ Keeps p' ps' ∧
      (blocksAt p.area.start 0 ps').Perm ((a, 2 ^ s) :: blocksAt p.area.start 0 ps) := by
  rcases hinv.alSlabAllocPages_run Nat.one_pos with
    ⟨hrun, -⟩ | ⟨l, n, r, p₁, xs₁, rfl, hn, hrun, hfree₁, honly₁, hinv₁⟩
  · refine .inl ?_
    rw [newChunk, hrun]
    rfl
  · have hempty₁ : xs₁ (.slot (s - 6)) = [] := by
      refine List.eq_nil_iff_forall_not_mem.mpr fun a ha => ?_
      have hold := (hinv.mem_iff _ (head_slot hlo hhi) a).not.mp (hempty ▸ List.not_mem_nil)
      have hlead := (hinv₁.mem_iff _ (head_slot hlo hhi) a).mp ha
      have hlen : total Piece.len (taken 1 n) = n := total_taken hn
      rw [lead_append, lead_append, Nat.zero_add] at hlead hold
      simp only [total_append, hlen, total_cons, total_nil, len_free, Nat.add_zero] at hlead hold
      rcases hlead with (hlead | hlead) | hlead
      · exact hold (.inl (.inl hlead))
      · unfold taken at hlead
        split at hlead <;> simp at hlead
      · exact hold (.inr hlead)
    have hrow : ∀ y : Piece, l ++ (y :: if 1 < n then [.free (n - 1)] else []) ++ r =
        l ++ [y] ++ ((if 1 < n then [.free (n - 1)] else []) ++ r) := by
      intro y
      simp
    rw [taken, hrow] at hinv₁
    obtain ⟨p₂, xs₂, hrun₂, hfree₂, honly₂, hinv₂⟩ := hinv₁.install_run hlo hhi hempty₁
    rw [← hrow] at hinv₂
    have hlimit : 0 < (kind s).limit := by
      rw [kind_limit hlo hhi]
      exact Nat.two_pow_pos _
    refine .inr ⟨p.area.start + pageSize * total Piece.len l, p₂, _, ?_, honly₁.trans honly₂,
      ⟨⟨xs₂, hinv₂⟩, h.settled.split Bool.false_ne_true ⟨0, hlimit, rfl⟩, ?_⟩, ?_⟩
    · rw [newChunk, hrun, Option.bind_eq_bind, Option.bind_some]
      change (install _ _ _ _ >>= _) = _
      rw [hrun₂, Option.bind_eq_bind, Option.bind_some, Pool.alSlabPageAddr, honly₂.area, honly₁.area]
    · have hvacant := vacant_taken hn
      rw [hfree₂, hfree₁, h.pfree]
      simp only [taken, vacant_append, vacant_cons, vacant_nil, Piece.isFree, if_true, len_free,
        Bool.false_eq_true, if_false, Nat.zero_add] at hvacant ⊢
      omega
    · refine blocks_exchange ?_ ?_
      · rw [show total Piece.len [.free n] = total Piece.len (taken 1 n) by rw [total_taken hn]; simp]
        rfl
      · have hfirst : ((List.range (kind s).limit).filter fun j => decide (j = 0)).Perm [0] := by
          refine (List.perm_ext_iff_of_nodup (List.nodup_range.filter _) (List.nodup_singleton 0)).mpr
            fun i => ?_
          by_cases hi : i = 0 <;> simp [hi, hlimit]
        have hblocks := hfirst.map fun j => (p.area.start + pageSize * total Piece.len l + j * 2 ^ s, 2 ^ s)
        split <;> simpa [Piece.blocks] using hblocks

theorem Keeps.allocChunk_run {s : ℕ} (h : Keeps p ps) (hlo : 6 ≤ s) (hhi : s < 12) :
    allocChunk s p = some (none, p) ∨
    ∃ a p' ps', allocChunk s p = some (some a, p') ∧ Only p p' ∧ Keeps p' ps' ∧
      (blocksAt p.area.start 0 ps').Perm ((a, 2 ^ s) :: blocksAt p.area.start 0 ps) := by
  obtain ⟨xs, hinv⟩ := h.inv
  have he := head_slot hlo hhi
  have hnext := hinv.rings.next_head he
  cases hslot : xs (.slot (s - 6)) with
  | nil =>
    rw [hslot] at hnext
    have hself : p.next (.slot (s - 6)) = .slot (s - 6) := hnext
    have hstart : allocChunk s p = newChunk (kind s) (s - 6) p := by
      rw [allocChunk, read_run he.mapped, Option.bind_eq_bind, Option.bind_some, hself, read_run he.mapped,
        Option.bind_eq_bind, Option.bind_some, if_pos hself]
    rw [hstart]
    exact h.newChunk_run hinv hlo hhi hslot
  | cons z t =>
    have hz : z ∈ xs (.slot (s - 6)) := hslot ▸ List.mem_cons_self
    rw [hslot] at hnext
    obtain ⟨o, x, hx, hl, rfl⟩ := (hinv.mem_iff _ he z).mp hz
    -- the page is one of chunks with a free one
    obtain ⟨u, rfl, hfull⟩ : ∃ u, x = .chunks s u ∧ ¬ Full s u := by
      cases x with
      | chunks s' u =>
        obtain ⟨⟨hlo', heq⟩, hfull⟩ := listed_chunks.mp hl
        injection heq with heq
        obtain rfl : s = s' := by omega
        exact ⟨u, rfl, hfull⟩
      | free n => cases listed_free.mp hl
      | busy n => exact hl.elim
      | gap n => exact hl.elim
    obtain ⟨l, r, rfl, ho⟩ := mem_placed_iff.mp hx
    rw [Nat.zero_add] at ho
    have hrow : l ++ Piece.chunks s u :: r = l ++ [.chunks s u] ++ r := by simp
    rw [hrow] at hinv hx h
    have hb := hinv.bounds hx
    rw [len_chunks] at hb
    have hmapped : p.area.mapped (.page o) := mapped_page (by omega)
    obtain ⟨j, hj, huj, hfind⟩ := (hinv.shows _ _ hx).2.2.2.1.firstFree_run hlo hhi hfull
    obtain ⟨p', xs', hrun, hfree, honly, hinv'⟩ := hinv.takeChunk_run hfull hj
    rw [← ho] at hrun
    have hpage : p.next (.slot (s - 6)) = .page o := hnext
    refine .inr ⟨p.area.start + pageSize * o + j * 2 ^ s, p', _, ?_, honly,
      ⟨⟨xs', hinv'⟩, h.settled.exchange Bool.false_ne_true ⟨j, hj, update_self ..⟩, ?_⟩, ?_⟩
    · have hne : ¬ p.next (.page o) = .page o := (hinv.rings.next_mem he hz).2
      rw [allocChunk, read_run he.mapped, Option.bind_eq_bind, Option.bind_some, hpage, read_run hmapped,
        Option.bind_eq_bind, Option.bind_some, if_neg hne]
      simp only [read_run hmapped, Option.bind_eq_bind, Option.bind_some, hfind, hrun, Pool.alSlabPageAddr,
        honly.area, Nat.shiftLeft_eq]
    · rw [hfree, h.pfree]
      simp [vacant_cons, Piece.isFree]
    · rw [hrow]
      refine blocks_exchange rfl ?_
      have hperm := (filter_update_perm hj huj).map fun j => (p.area.start + pageSize * o + j * 2 ^ s, 2 ^ s)
      simpa [Piece.blocks, ← ho] using hperm

theorem shiftOf_spec (h : size ≤ maxSize) :
    6 ≤ shiftOf size ∧ shiftOf size < 12 ∧ size ≤ 2 ^ shiftOf size := by
  unfold shiftOf
  have hmax : size ≤ 2048 := h
  split
  · have hlt : size - 1 < 2 ^ ((size - 1).log2 + 1) := Nat.lt_log2_self
    have hlow : 6 ≤ (size - 1).log2 := (Nat.le_log2 (by omega)).mpr (by omega)
    have hhigh : (size - 1).log2 < 11 := (Nat.log2_lt (by omega)).mpr (by omega)
    exact ⟨by omega, by omega, by omega⟩
  · exact ⟨le_rfl, by omega, by omega⟩

theorem pagesOf_spec (size : ℕ) : size ≤ pageSize * pagesOf size := by
  unfold pagesOf pageSize
  split <;> omega

theorem le_capacity (size : ℕ) : size ≤ capacity size := by
  unfold capacity
  split
  · exact pagesOf_spec size
  · rename_i hsize
    exact (shiftOf_spec (Nat.not_lt.mp hsize)).2.2

theorem Keeps.alSlabAllocLocked_run (h : Keeps p ps) (size : ℕ) :
    (alSlabAllocLocked size p = some (none, p) ∧ (maxSize < size → ∀ n, .free n ∈ ps → n < pagesOf size)) ∨
    ∃ a p' ps', alSlabAllocLocked size p = some (some a, p') ∧ Only p p' ∧ Keeps p' ps' ∧
      (blocksAt p.area.start 0 ps').Perm ((a, capacity size) :: blocksAt p.area.start 0 ps) := by
  by_cases hsize : maxSize < size
  · have hpos : 0 < pagesOf size := by
      have := pagesOf_spec size
      by_contra hzero
      rw [Nat.eq_zero_of_not_pos hzero] at this
      omega
    rw [capacity, if_pos hsize]
    rcases h.alSlabAllocPages_run hpos p.area.start with
      ⟨hrun, hnone⟩ | ⟨i, p', ps', hrun, honly, hkeeps, hperm⟩
    · refine .inl ⟨?_, fun _ => hnone⟩
      rw [alSlabAllocLocked, if_pos hsize, hrun]
      rfl
    · refine .inr ⟨_, p', ps', ?_, honly, hkeeps, hperm⟩
      rw [alSlabAllocLocked, if_pos hsize, hrun, Option.bind_eq_bind, Option.bind_some]
      change some (some (p'.alSlabPageAddr i), p') = _
      rw [Pool.alSlabPageAddr, honly.area]
  · obtain ⟨hlo, hhi, -⟩ := shiftOf_spec (Nat.not_lt.mp hsize)
    rw [capacity, alSlabAllocLocked, if_neg hsize, if_neg hsize]
    exact (h.allocChunk_run hlo hhi).imp_left fun hrun => ⟨hrun, fun hbad => absurd hbad hsize⟩

end Alloc

section Joined
variable {start m : ℕ} {l l' r r' : List Piece} {x : Piece}
  (hleft : (l' = l ∧ ¬ EndsFree l) ∨ ∃ k, l = l' ++ [.free k])
  (hright : (r' = r ∧ ¬ StartsFree r) ∨ ∃ k, r = .free k :: r')
  (htotal : total Piece.len (l ++ [x] ++ r) = total Piece.len (l' ++ [.free m] ++ r'))
include hleft hright htotal

theorem blocks_joined : (blocksAt start 0 (l ++ [x] ++ r)).Perm
    (x.blocks start (total Piece.len l) ++ blocksAt start 0 (l' ++ [.free m] ++ r')) := by
  have hfront : blocksAt start 0 l = blocksAt start 0 l' := by
    rcases hleft with ⟨rfl, -⟩ | ⟨k, rfl⟩
    · rfl
    · simp [blocksAt_append, Piece.blocks]
  have hback : blocksAt start (total Piece.len l + x.len) r = blocksAt start (total Piece.len l' + m) r' := by
    rcases hright with ⟨rfl, -⟩ | ⟨k, rfl⟩
    · have hplace : total Piece.len l + x.len = total Piece.len l' + m := by
        simp only [total_append, total_cons, total_nil, len_free] at htotal
        omega
      rw [hplace]
    · have hplace : total Piece.len l + x.len + k = total Piece.len l' + m := by
        simp only [total_append, total_cons, total_nil, len_free] at htotal
        omega
      rw [blocksAt_cons, len_free, hplace]
      rfl
  simp only [blocksAt_append, blocksAt_cons, blocksAt_nil, total_append, total_cons, total_nil, len_free,
    Nat.zero_add, Nat.add_zero, List.append_nil, hfront, hback]
  refine (List.perm_append_comm.append_right _).trans ?_
  rw [List.append_assoc, show (Piece.free m).blocks start (total Piece.len l') = [] from rfl, List.append_nil]

theorem vacant_joined (hx : ¬ x.isFree) :
    vacant (l' ++ [.free m] ++ r') = vacant (l ++ [x] ++ r) + x.len := by
  have hone : vacant [x] = 0 := by
    rw [vacant_cons, if_neg hx, vacant_nil]
  have hrun : ∀ k, vacant [.free k] = k := by
    intro k
    simp [vacant_cons, Piece.isFree]
  simp only [total_append, total_cons, total_nil, len_free] at htotal
  simp only [vacant_append, hone, hrun]
  rcases hleft with ⟨rfl, -⟩ | ⟨k, rfl⟩ <;> rcases hright with ⟨rfl, -⟩ | ⟨k', rfl⟩
  · omega
  · simp only [vacant_cons, Piece.isFree, if_true, len_free, total_cons] at htotal ⊢
    omega
  · simp only [vacant_append, hrun, total_append, total_cons, total_nil, len_free] at htotal ⊢
    omega
  · simp only [vacant_append, hrun, vacant_cons, Piece.isFree, if_true, len_free, total_append, total_cons,
      total_nil] at htotal ⊢
    omega

end Joined

section Free
variable {p : Pool} {ps l r : List Piece} {x : Piece} {n : ℕ}

theorem Keeps.alSlabFreePages_run {q : Pool} {xs : Ref → List Ref} {y : Piece}
    (h : Keeps p (l ++ [y] ++ r)) (hy : ¬ y.isFree) (hlen : y.len = n) (hq : Inv q (l ++ [x] ++ r) xs)
    (hfree : q.pfree = p.pfree) (hx : x = .busy n ∨ ∃ s u, x = .chunks s u ∧ ¬ Full s u ∧ n = 1) :
    ∃ q' ps', alSlabFreePages (total Piece.len l) n q = some q' ∧ Only q q' ∧ Keeps q' ps' ∧
      ∀ start, (blocksAt start 0 (l ++ [y] ++ r)).Perm
        (y.blocks start (total Piece.len l) ++ blocksAt start 0 ps') := by
  obtain ⟨l', m, r', q', xs', hrun, hpfree, honly, hinv, hleft, hright⟩ :=
    hq.alSlabFreePages_run h.settled.no_gap hx
  have htotal : total Piece.len (l ++ [y] ++ r) = total Piece.len (l' ++ [.free m] ++ r') := by
    have hxlen : x.len = n := by
      rcases hx with rfl | ⟨s, u, rfl, -, rfl⟩ <;> rfl
    rw [hinv.tiled, honly.area, ← hq.tiled]
    simp [hlen, hxlen]
  refine ⟨q', _, hrun, honly, ⟨⟨xs', hinv⟩, h.settled.joined hleft hright, ?_⟩, fun start =>
    blocks_joined hleft hright htotal⟩
  rw [hpfree, hfree, h.pfree, vacant_joined hleft hright htotal hy, hlen]

theorem Inv.full_test {xs : Ref → List Ref} {s o : ℕ} {u : ℕ → Bool} (h : Inv p ps xs)
    (hx : (o, .chunks s u) ∈ placed Piece.len 0 ps) :
    (s = 6 → (p.slab (.page o) = busy ↔ Full s u)) ∧ (p.next (.page o) = .null ↔ Full s u) := by
  obtain ⟨hlo, hhi, -, hbits, hnull⟩ := h.shows _ _ hx
  refine ⟨?_, ?_, hnull⟩
  · rintro rfl
    rw [← hbits.full_iff hlo hhi]
    change _ ↔ p.slab (.page o) &&& BitVec.allOnes 64 = busy
    rw [BitVec.and_allOnes]
  · intro hnext
    by_contra hfull
    exact h.lists.next_ne_null (head_slot hlo hhi) (h.mem_slot hx hfull) hnext

theorem Keeps.freeChunk_run {s j a : ℕ} {u : ℕ → Bool} (h : Keeps p (l ++ [.chunks s u] ++ r))
    (hlo : 6 ≤ s) (hhi : s < 12) (hj : j < (kind s).limit) (huj : u j = true) (full : Bool)
    (hfull : full = true ↔ Full s u) (ha : (a % pageSize) >>> s = j) :
    ∃ p' ps', freeChunk (kind s) s full (total Piece.len l) a (p.slab (.page (total Piece.len l))) p =
        some p' ∧ Only p p' ∧ Keeps p' ps' ∧
      ∀ start, (blocksAt start 0 (l ++ [.chunks s u] ++ r)).Perm
        ((start + pageSize * total Piece.len l + j * 2 ^ s, 2 ^ s) :: blocksAt start 0 ps') := by
  obtain ⟨xs, hinv⟩ := h.inv
  have hbits := (hinv.shows _ _ mem_middle).2.2.2.1
  obtain ⟨p₁, xs₁, hrun₁, hfree₁, honly₁, hinv₁⟩ := hinv.clearChunk_run hfull hj
  have hbits₁ := hbits.clear hj
  -- the other chunks in use
  have hold : update (update u j false) j true = u := by
    rw [update_idem]
    exact (congrArg (update u j) huj.symm).trans (update_eq_self ..)
  have hperm : ∀ start, ((Piece.chunks s u).blocks start (total Piece.len l)).Perm
      ((start + pageSize * total Piece.len l + j * 2 ^ s, 2 ^ s) ::
        (Piece.chunks s (update u j false)).blocks start (total Piece.len l)) := by
    intro start
    have hfilter := filter_update_perm (u := update u j false) hj (update_self ..)
    rw [hold] at hfilter
    exact hfilter.map _
  have hstart : freeChunk (kind s) s full (total Piece.len l) a (p.slab (.page (total Piece.len l))) p =
      if p.slab (.page (total Piece.len l)) &&& ~~~(1#64 <<< ((kind s).off + j)) &&& (kind s).mask ≠ 0 then
        some p₁ else alSlabFreePages (total Piece.len l) 1 p₁ := by
    have hset : (p.slab (.page (total Piece.len l))).getLsbD ((kind s).off + j) = true :=
      (hbits.get hlo hhi hj).trans huj
    simp only [freeChunk, ha, hset, if_true, hrun₁, Option.bind_eq_bind, Option.bind_some]
  rw [hstart]
  by_cases hnone : ∀ i < (kind s).limit, update u j false i = false
  · rw [if_neg (not_not_intro ((hbits₁.empty_iff hlo hhi).mpr hnone))]
    obtain ⟨p₂, ps', hrun₂, honly₂, hkeeps, hblocks⟩ := h.alSlabFreePages_run Bool.false_ne_true rfl hinv₁
      hfree₁ (.inr ⟨s, _, rfl, not_full_update hj, rfl⟩)
    refine ⟨p₂, ps', hrun₂, honly₁.trans honly₂, hkeeps, fun start => (hblocks start).trans ?_⟩
    have hempty : (Piece.chunks s (update u j false)).blocks start (total Piece.len l) = [] := by
      have hfilter : (List.range (kind s).limit).filter (update u j false) = [] := by
        rw [List.filter_eq_nil_iff]
        intro i hi hbad
        rw [hnone i (List.mem_range.mp hi)] at hbad
        cases hbad
      rw [Piece.blocks, hfilter, List.map_nil]
    have hone := hperm start
    rw [hempty] at hone
    exact hone.append_right _
  · rw [if_pos fun hbad => hnone ((hbits₁.empty_iff hlo hhi).mp hbad)]
    have hsome : ∃ i < (kind s).limit, update u j false i = true := by
      simpa using hnone
    refine ⟨p₁, _, rfl, honly₁, ⟨⟨xs₁, hinv₁⟩, h.settled.exchange Bool.false_ne_true hsome, ?_⟩, fun start =>
      blocks_exchange rfl ?_⟩
    · rw [hfree₁, h.pfree]
      simp [vacant_cons, Piece.isFree]
    · simpa using hperm start

theorem start_clear (h : n < 2 ^ 63) :
    ((BitVec.ofNat 64 n ||| pageStart) &&& ~~~pageStart).toNat = n := by
  have heq : (BitVec.ofNat 64 n ||| pageStart) &&& ~~~pageStart = BitVec.ofNat 64 n := by
    apply BitVec.eq_of_getLsbD_eq
    intro b hb
    rw [BitVec.getLsbD_and, BitVec.getLsbD_or, BitVec.getLsbD_not, decide_eq_true hb, Bool.true_and]
    cases hbit : pageStart.getLsbD b with
    | false => simp
    | true =>
      have hlast : ∀ b < 64, pageStart.getLsbD b = true → b = 63 := by decide +kernel
      rw [hlast b hb hbit, BitVec.getLsbD_ofNat]
      simp [Nat.testBit_lt_two_pow h]
  rw [heq, toNat_ofNat h]

theorem start_ne_busy (h : n < 2 ^ 62) : BitVec.ofNat 64 n ||| pageStart ≠ busy := by
  intro heq
  have hbit : (BitVec.ofNat 64 n ||| pageStart).getLsbD 62 = busy.getLsbD 62 := by
    rw [heq]
  rw [BitVec.getLsbD_or, BitVec.getLsbD_ofNat, Nat.testBit_lt_two_pow h] at hbit
  revert hbit
  decide

theorem start_and : (BitVec.ofNat 64 n ||| pageStart) &&& pageStart ≠ 0 := by
  intro heq
  have hbit : ((BitVec.ofNat 64 n ||| pageStart) &&& pageStart).getLsbD 63 = (0#64).getLsbD 63 := by
    rw [heq]
    rfl
  rw [BitVec.getLsbD_and, BitVec.getLsbD_or, show pageStart.getLsbD 63 = true from rfl, Bool.or_true] at hbit
  cases hbit

theorem Area.Ok.address {a : Area} {o d : ℕ} (h : a.Ok) (ho : o < a.count) (hd : d < pageSize) :
    ¬ (a.start + pageSize * o + d < a.start ∨ a.limit < a.start + pageSize * o + d) ∧
      (a.start + pageSize * o + d - a.start) / pageSize = o ∧ (a.start + pageSize * o + d) % pageSize = d := by
  have haligned := h.aligned
  have hinside := h.inside
  have hle := Nat.mul_le_mul_left pageSize (Nat.succ_le_of_lt ho)
  simp only [pageSize] at *
  refine ⟨by omega, by omega, by omega⟩

theorem Keeps.alSlabFreeLocked_run {b : ℕ × ℕ} (h : Keeps p ps) (hok : p.area.Ok)
    (hb : b ∈ blocksAt p.area.start 0 ps) :
    ∃ p' ps', alSlabFreeLocked b.1 p = some p' ∧ Only p p' ∧ Keeps p' ps' ∧
      (blocksAt p.area.start 0 ps).Perm (b :: blocksAt p.area.start 0 ps') := by
  obtain ⟨l, x, r, rfl, hmem⟩ := mem_blocksAt hb
  obtain ⟨xs, hinv⟩ := h.inv
  have hbounds := hinv.bounds mem_middle
  have hshows := hinv.shows _ _ mem_middle
  have hcount : total Piece.len l < p.area.count := by omega
  have hmapped : p.area.mapped (.page (total Piece.len l)) := mapped_page hcount
  cases x with
  | free n => cases hmem
  | gap n => cases hmem
  | busy n =>
    cases List.mem_singleton.mp hmem
    rw [len_busy] at hbounds
    obtain ⟨hrange, hindex, haddr⟩ := hok.address hcount (show 0 < pageSize by decide)
    rw [Nat.add_zero] at hrange hindex haddr
    obtain ⟨-, hslab, -, hall⟩ := hshows
    have htype := (hall _ le_rfl (by omega)).2
    have hsmall := hinv.small
    obtain ⟨p', ps', hrun, honly, hkeeps, hblocks⟩ := h.alSlabFreePages_run Bool.false_ne_true rfl hinv rfl
      (.inl rfl)
    refine ⟨p', ps', ?_, honly, hkeeps, hblocks _⟩
    have hno : ¬ (0 ≠ 0 ∨ (BitVec.ofNat 64 n ||| pageStart) &&& pageStart = 0 ∨
        BitVec.ofNat 64 n ||| pageStart = busy) := by
      rintro (hbad | hbad | hbad)
      · exact hbad rfl
      · exact start_and hbad
      · exact start_ne_busy (by omega) hbad
    simp only [alSlabFreeLocked, if_neg hrange, hindex, read_run hmapped, htype, Option.bind_eq_bind,
      Option.bind_some, haddr, hslab, if_neg hno, start_clear (show n < 2 ^ 63 by omega)]
    exact hrun
  | chunks s u =>
    obtain ⟨j, hj, rfl⟩ := List.mem_map.mp hmem
    obtain ⟨hrj, huj⟩ := List.mem_filter.mp hj
    have hj := List.mem_range.mp hrj
    obtain ⟨hlo, hhi, htype, hbits, -⟩ := hshows
    have hpow : 2 ^ (12 - s) * 2 ^ s = pageSize := by
      rw [← pow_add, show 12 - s + s = 12 by omega]
      rfl
    have hd : j * 2 ^ s < pageSize := by
      rw [← hpow]
      rw [kind_limit hlo hhi] at hj
      exact Nat.mul_lt_mul_of_pos_right hj (Nat.two_pow_pos s)
    obtain ⟨hrange, hindex, haddr⟩ := hok.address hcount hd
    have hshift : ((p.area.start + pageSize * total Piece.len l + j * 2 ^ s) % pageSize) >>> s = j := by
      rw [haddr, Nat.shiftRight_eq_div_pow, Nat.mul_div_cancel _ (Nat.two_pow_pos s)]
    have hdvd : (p.area.start + pageSize * total Piece.len l + j * 2 ^ s) % 2 ^ s = 0 := by
      have hpage : 2 ^ s ∣ pageSize := Dvd.intro_left _ hpow
      refine Nat.mod_eq_zero_of_dvd (Nat.dvd_add (Nat.dvd_add ?_ ?_) (Dvd.intro_left _ rfl))
      · exact hpage.trans (Nat.dvd_of_mod_eq_zero hok.aligned)
      · exact hpage.trans (Dvd.intro _ rfl)
    obtain ⟨hexact, hbig⟩ := hinv.full_test mem_middle
    by_cases hs : s = 6
    · obtain ⟨p', ps', hrun, honly, hkeeps, hblocks⟩ := h.freeChunk_run hlo hhi hj huj
        (decide (p.slab (.page (total Piece.len l)) = busy)) (by simpa using hexact hs) hshift
      refine ⟨p', ps', ?_, honly, hkeeps, hblocks _⟩
      subst hs
      have htype : p.type (.page (total Piece.len l)) = .exact := htype
      have hno : ¬ (p.area.start + pageSize * total Piece.len l + j * 2 ^ 6) % 64 ≠ 0 :=
        not_not_intro hdvd
      simp only [alSlabFreeLocked, if_neg hrange, hindex, read_run hmapped, htype, Option.bind_eq_bind,
        Option.bind_some, if_neg hno]
      exact hrun
    · obtain ⟨p', ps', hrun, honly, hkeeps, hblocks⟩ := h.freeChunk_run hlo hhi hj huj
        (decide (p.next (.page (total Piece.len l)) = .null)) (by simpa using hbig) hshift
      refine ⟨p', ps', ?_, honly, hkeeps, hblocks _⟩
      have hkind : kind s = bigKind s := if_neg hs
      have htype : p.type (.page (total Piece.len l)) = .big := by
        rw [htype, hkind]
        rfl
      have hno : ¬ (p.area.start + pageSize * total Piece.len l + j * 2 ^ s) % 2 ^ s ≠ 0 :=
        not_not_intro hdvd
      have hword := hbits.shift (by omega) hhi
      rw [hkind] at hrun
      simp only [alSlabFreeLocked, if_neg hrange, hindex, read_run hmapped, htype, Option.bind_eq_bind,
        Option.bind_some, hword, if_neg hno]
      exact hrun

end Free

end Aware.Slab
