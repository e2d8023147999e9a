import Aware.Service.World

/-!
# Every session object in one place

An object is in the pool, linked in the table of one thread, or in the hands of one thread that
is setting it up or freeing it. No condition on the steps is needed for this.
-/
namespace Aware.Service
open Function Aware.Filter Aware.Member Aware.Sessions

section Linked
variable {ι : Type} {table : List (List ι)} {heap heap' : ι → Session ι} {x c u : ι}

/-- The table of a thread: sessions in pairs, each in the bucket of its key. -/
structure Linked (table : List (List ι)) (heap : ι → Session ι) : Prop where
  paired : Paired table heap
  size : table.length = sessionBuckets
  bucket : ∀ i b, table[i]? = some b → ∀ x ∈ b, bucketOf (heap x).key = i

theorem Linked.congr (h : Linked table heap)
    (hx : ∀ x ∈ table.flatten, (heap' x).key = (heap x).key ∧ (heap' x).up = (heap x).up) :
    Linked table heap' where
  paired :=
    { nodup := h.paired.nodup
      mem := fun x hm => by
        rw [(hx x hm).2]
        exact h.paired.mem x hm
      back := fun x hm => by
        rw [(hx x hm).2, (hx _ (h.paired.mem x hm)).2]
        exact h.paired.back x hm
      ne := fun x hm => by
        rw [(hx x hm).2]
        exact h.paired.ne x hm }
  size := h.size
  bucket i b hb x hxb := by
    rw [(hx x (List.mem_flatten.mpr ⟨b, List.mem_of_getElem? hb, hxb⟩)).1]
    exact h.bucket i b hb x hxb

theorem bucketOf_lt (k : Key) : bucketOf k < sessionBuckets := by
  have hle (a : BitVec 32) : (a &&& sessionMask).toNat < sessionBuckets := by
    rw [BitVec.toNat_and]
    exact Nat.lt_succ_of_le Nat.and_le_right
  cases k with
  | v4 t => exact hle _
  | v6 t => exact hle _

theorem flatten_modify {i : ℕ} (hi : i < table.length) (x : ι) :
    (table.modify i (x :: ·)).flatten.Perm (x :: table.flatten) := by
  induction table generalizing i with
  | nil => simp at hi
  | cons b table ih =>
    cases i with
    | zero => simp
    | succ i =>
      rw [List.modify_succ_cons, List.flatten_cons, List.flatten_cons]
      exact ((ih (Nat.lt_of_succ_lt_succ hi)).append_left b).trans List.perm_middle

theorem flatten_alSessionAdd (hs : table.length = sessionBuckets) (x : ι) :
    (alSessionAdd table heap x).flatten.Perm (x :: table.flatten) :=
  flatten_modify (hs ▸ bucketOf_lt _) x

theorem length_alSessionAdd (table : List (List ι)) (heap : ι → Session ι) (x : ι) :
    (alSessionAdd table heap x).length = table.length :=
  List.length_modify _ _ _

theorem bucket_alSessionAdd
    (h : ∀ i b, table[i]? = some b → ∀ x ∈ b, bucketOf (heap x).key = i) (x : ι) :
    ∀ i b, (alSessionAdd table heap x)[i]? = some b → ∀ y ∈ b, bucketOf (heap y).key = i := by
  intro i b hb y hy
  rw [alSessionAdd, List.getElem?_modify] at hb
  obtain ⟨b', hb', heq⟩ := Option.map_eq_some_iff.mp hb
  split at heq
  · rename_i hi
    cases heq
    rcases List.mem_cons.mp hy with rfl | hy
    · exact hi
    · exact h i b' hb' y hy
  · cases heq
    exact h i b hb' y hy

theorem flatten_addPair (hs : table.length = sessionBuckets) (heap : ι → Session ι) (c u : ι) :
    (addPair table heap c u).flatten.Perm (u :: c :: table.flatten) :=
  (flatten_alSessionAdd ((length_alSessionAdd _ _ _).trans hs) u).trans
    ((flatten_alSessionAdd hs c).cons u)

theorem Linked.addPair (h : Linked table heap) (hnodup : (u :: c :: table.flatten).Nodup)
    (hc : (heap c).up = u) (hu : (heap u).up = c) : Linked (addPair table heap c u) heap := by
  have hperm := flatten_addPair h.size heap c u
  have hne : u ≠ c := fun heq => (List.nodup_cons.mp hnodup).1 (heq ▸ List.mem_cons_self)
  have hmem : ∀ x, x ∈ (Service.addPair table heap c u).flatten ↔ x = u ∨ x = c ∨ x ∈ table.flatten := by
    intro x
    rw [hperm.mem_iff, List.mem_cons, List.mem_cons]
  refine ⟨⟨hperm.nodup_iff.mpr hnodup, ?_, ?_, ?_⟩, ?_, ?_⟩
  · intro x hx
    rcases (hmem x).mp hx with rfl | rfl | hx
    · exact (hmem _).mpr (.inr (.inl hu))
    · exact (hmem _).mpr (.inl hc)
    · exact (hmem _).mpr (.inr (.inr (h.paired.mem x hx)))
  · intro x hx
    rcases (hmem x).mp hx with rfl | rfl | hx
    · rw [hu, hc]
    · rw [hc, hu]
    · exact h.paired.back x hx
  · intro x hx
    rcases (hmem x).mp hx with rfl | rfl | hx
    · rw [hu]
      exact hne.symm
    · rw [hc]
      exact hne
    · exact h.paired.ne x hx
  · rw [Service.addPair, length_alSessionAdd, length_alSessionAdd, h.size]
  · exact bucket_alSessionAdd (bucket_alSessionAdd h.bucket c) u

end Linked

section World
variable {ι : Type} {w w' : World ι} {t : UInt8} {sh : Shared ι} {ph : Phase ι}

def Phase.objects : Phase ι → List ι
  | .idle => []
  | .started _ _ => []
  | .opened _ _ c => [c]
  | .paired _ _ c u => [c, u]
  | .entered _ _ c u _ => [c, u]
  | .freeing xs => xs.map Prod.fst

def World.held (w : World ι) (t : UInt8) : List ι :=
  (w.phase t).objects ++ (w.table t).flatten

def Phase.Ready (heap : ι → Session ι) : Phase ι → Prop
  | .paired f _ c u =>
    (heap u).ftype = f.ftype ∧ (heap u).isUps = true ∧ (heap c).isUps = false
  | .entered _ _ c u _ => (heap u).isUps = true ∧ (heap c).isUps = false
  | _ => True

variable {heap heap' : ι → Session ι} {pool : List ι} {pkt : Packet} {f : AlFargs} {c : ι}

theorem Phase.Ready.congr (h : ph.Ready heap)
    (hx : ∀ x ∈ ph.objects, (heap' x).ftype = (heap x).ftype ∧ (heap' x).isUps = (heap x).isUps) :
    ph.Ready heap' := by
  cases ph with
  | paired f pkt c u =>
    have hc := hx c (by simp [Phase.objects])
    have hu := hx u (by simp [Phase.objects])
    exact ⟨hu.1.trans h.1, hu.2.trans h.2.1, hc.2.trans h.2.2⟩
  | entered f pkt c u tgt =>
    have hc := hx c (by simp [Phase.objects])
    have hu := hx u (by simp [Phase.objects])
    exact ⟨hu.2.trans h.1, hc.2.trans h.2⟩
  | idle | started | opened | freeing => trivial

structure Sound (w : World ι) : Prop where
  placed : Placed w.shared.pool w.held
  linked : ∀ t, Linked (w.table t) w.shared.heap
  ready : ∀ t, (w.phase t).Ready w.shared.heap

def Untouched (xs : List ι) (heap heap' : ι → Session ι) : Prop :=
  ∀ x ∉ xs, ∃ n, heap' x = { heap x with stout := n }

theorem Untouched.of_eq {xs : List ι} (h : ∀ x ∉ xs, heap' x = heap x) : Untouched xs heap heap' :=
  fun x hx => ⟨(heap x).stout, h x hx⟩

theorem Untouched.of_onlyStout {xs : List ι} (h : OnlyStout heap heap') : Untouched xs heap heap' :=
  fun x _ => h x

section Put
variable {table : List (List ι)}

theorem held_put : (w.put t sh ph table).held =
    update w.held t (ph.objects ++ table.flatten) := by
  funext t'
  rcases eq_or_ne t' t with rfl | ht
  · simp [World.held, World.put]
  · simp [World.held, World.put, ht]

theorem Untouched.other
    (hplaced : Placed sh.pool (update w.held t (ph.objects ++ table.flatten)))
    (hheap : Untouched (ph.objects ++ table.flatten) w.shared.heap sh.heap) {t' : UInt8}
    (ht : t' ≠ t) {x : ι} (hx : x ∈ w.held t') :
    ∃ n, sh.heap x = { w.shared.heap x with stout := n } := by
  refine hheap x fun hmem => ht (hplaced.apart t' t x ?_ ?_)
  · rwa [update_of_ne ht]
  · rwa [update_self]

theorem Sound.put (h : Sound w)
    (hplaced : Placed sh.pool (update w.held t (ph.objects ++ table.flatten)))
    (hheap : Untouched (ph.objects ++ table.flatten) w.shared.heap sh.heap)
    (hlinked : Linked table sh.heap) (hready : ph.Ready sh.heap) :
    Sound (w.put t sh ph table) := by
  refine ⟨by rw [held_put]; exact hplaced, fun t' => ?_, fun t' => ?_⟩
  · change Linked (update w.table t table t') sh.heap
    rcases eq_or_ne t' t with rfl | ht
    · rwa [update_self]
    · rw [update_of_ne ht]
      refine (h.linked t').congr fun x hx => ?_
      obtain ⟨n, hn⟩ := hheap.other hplaced ht (List.mem_append_right _ hx)
      rw [hn]
      exact ⟨rfl, rfl⟩
  · change (update w.phase t ph t').Ready sh.heap
    rcases eq_or_ne t' t with rfl | ht
    · rwa [update_self]
    · rw [update_of_ne ht]
      refine (h.ready t').congr fun x hx => ?_
      obtain ⟨n, hn⟩ := hheap.other hplaced ht (List.mem_append_left _ hx)
      rw [hn]
      exact ⟨rfl, rfl⟩

theorem Sound.move (h : Sound w)
    (hplaced : Placed sh.pool (update w.held t (ph.objects ++ (w.table t).flatten)))
    (hheap : ∀ x ∉ ph.objects, sh.heap x = w.shared.heap x) (hready : ph.Ready sh.heap) :
    Sound (w.put t sh ph (w.table t)) := by
  refine h.put hplaced (.of_eq fun x hx => ?_) ((h.linked t).congr fun x hx => ?_) hready
  · exact hheap x fun hobj => hx (List.mem_append_left _ hobj)
  · have hnodup := hplaced.nodup t
    rw [update_self] at hnodup
    rw [hheap x fun hobj => (List.nodup_append.mp hnodup).2.2 x hobj x hx rfl]
    exact ⟨rfl, rfl⟩

theorem Sound.rearrange (h : Sound w) (hperm : (w.phase t).objects.Perm ph.objects)
    (hpool : sh.pool = w.shared.pool) (hheap : ∀ x ∉ ph.objects, sh.heap x = w.shared.heap x)
    (hready : ph.Ready sh.heap) : Sound (w.put t sh ph (w.table t)) := by
  refine h.move ?_ hheap hready
  rw [hpool]
  exact h.placed.perm (hperm.append_right _)

end Put

theorem Sound.free (h : Sound w) {x : ι} {b : Bool} {xs : List (ι × Bool)}
    (hph : w.phase t = .freeing ((x, b) :: xs)) :
    Sound (w.put t (w.shared.free x) (.freeing xs) (w.table t)) := by
  refine h.move (h.placed.give ?_) (fun _ _ => rfl) trivial
  rw [World.held, hph]
  rfl

theorem linked_replicate (heap : ι → Session ι) :
    Linked (List.replicate sessionBuckets []) heap := by
  have hempty : ∀ x, x ∉ (List.replicate sessionBuckets ([] : List ι)).flatten := by
    intro x
    rw [List.flatten_replicate_nil]
    exact List.not_mem_nil
  refine ⟨⟨?_, ?_, ?_, ?_⟩, List.length_replicate, fun i b hb x hx => ?_⟩
  · rw [List.flatten_replicate_nil]
    exact .nil
  · exact fun x hx => absurd hx (hempty x)
  · exact fun x hx => absurd hx (hempty x)
  · exact fun x hx => absurd hx (hempty x)
  · exact absurd (List.mem_flatten.mpr ⟨b, List.mem_of_getElem? hb, hx⟩) (hempty x)

theorem sound_start (heap : ι → Session ι) (hpool : pool.Nodup)
    (portStart : UInt16) : Sound (start heap pool portStart) := by
  have hheld : ∀ t, (start heap pool portStart).held t = [] := by
    intro t
    simp only [World.held, start, Phase.objects, List.nil_append, List.flatten_replicate_nil]
  refine ⟨⟨hpool, fun t => ?_, fun t t' x hx => ?_, fun t x hx => ?_⟩,
    fun t => linked_replicate heap, fun t => trivial⟩
  · rw [hheld]
    exact .nil
  · rw [hheld] at hx
    cases hx
  · rw [hheld] at hx
    cases hx

variable [DecidableEq ι]

theorem Sound.openClient (h : Sound w)
    (hph : w.phase t = .started f pkt) (hpool : w.shared.pool = c :: pool) :
    Sound (w.put t ({ w.shared with pool }.openClient c f) (.opened f pkt c) (w.table t)) := by
  refine h.move ?_ (fun x hx => ?_) trivial
  · have hplaced := h.placed
    rw [hpool] at hplaced
    refine hplaced.take ?_
    rw [World.held, hph]
    exact .refl _
  · exact update_of_ne (fun heq => hx (by simp [Phase.objects, heq])) _ _

theorem Sound.openUpstream (h : Sound w) {sys : System} {u : ι}
    (hph : w.phase t = .opened f pkt c) (hpool : w.shared.pool = u :: pool) :
    Sound (w.put t ({ w.shared with pool }.openUpstream sys c u f pkt) (.paired f pkt c u)
      (w.table t)) := by
  have hplaced := h.placed
  rw [hpool] at hplaced
  have hheld : w.held t = c :: (w.table t).flatten := by
    rw [World.held, hph]
    rfl
  have hne : u ≠ c := by
    rintro rfl
    exact hplaced.out t u (hheld ▸ List.mem_cons_self) List.mem_cons_self
  refine h.move ?_ (fun x hx => ?_) ⟨?_, ?_, ?_⟩
  · refine hplaced.take ?_
    rw [hheld]
    exact .swap _ _ _
  · have hxc : x ≠ c := fun heq => hx (by simp [Phase.objects, heq])
    have hxu : x ≠ u := fun heq => hx (by simp [Phase.objects, heq])
    exact (update_of_ne hxc _ _).trans (update_of_ne hxu _ _)
  · simp only [Shared.openUpstream, update_of_ne hne, update_self]
    rfl
  · simp only [Shared.openUpstream, update_of_ne hne, update_self]
    rfl
  · simp only [Shared.openUpstream, update_self]
    rfl

theorem Sound.link (h : Sound w) {u : ι} {tgt : Target}
    (hph : w.phase t = .entered f pkt c u tgt) (up : Session ι) :
    Sound (w.put t (w.shared.pair c u up f) .idle
      (addPair (w.table t) (w.shared.pair c u up f).heap c u)) := by
  have hheld : w.held t = c :: u :: (w.table t).flatten := by
    rw [World.held, hph]
    rfl
  have hperm := flatten_addPair (h.linked t).size (w.shared.pair c u up f).heap c u
  have hnodup := h.placed.nodup t
  rw [hheld, (List.Perm.swap _ _ _).nodup_iff] at hnodup
  have hne : u ≠ c := fun heq => (List.nodup_cons.mp hnodup).1 (heq ▸ List.mem_cons_self)
  have hout : ∀ x, x ≠ c → x ≠ u → (w.shared.pair c u up f).heap x = w.shared.heap x :=
    fun x hc hu => (update_of_ne hc _ _).trans (update_of_ne hu _ _)
  refine h.put ?_ (.of_eq fun x hx => ?_) (Linked.addPair ?_ hnodup ?_ ?_) trivial
  · refine h.placed.perm ?_
    rw [hheld]
    exact (List.Perm.swap _ _ _).trans hperm.symm
  · have hmem : x ∉ u :: c :: (w.table t).flatten := fun hmem => hx (hperm.mem_iff.mpr hmem)
    simp only [List.mem_cons, not_or] at hmem
    exact hout x hmem.2.1 hmem.1
  · refine (h.linked t).congr fun x hx => ?_
    have hxu : x ≠ u := fun heq => (List.nodup_cons.mp hnodup).1 (List.mem_cons_of_mem _ (heq ▸ hx))
    have hxc : x ≠ c := fun heq =>
      (List.nodup_cons.mp (List.nodup_cons.mp hnodup).2).1 (heq ▸ hx)
    rw [hout x hxc hxu]
    exact ⟨rfl, rfl⟩
  · simp only [Shared.pair, update_self]
  · simp only [Shared.pair, update_of_ne hne, update_self]

theorem Sound.advance (h : Sound w) {sys : System} {stk : Stack}
    (hw : w.advance t sys stk = some w') : Sound w' := by
  obtain ⟨sh, ph, table, hadv, rfl⟩ := advance_spec hw
  have hready := h.ready t
  generalize hph : w.phase t = ph₀ at hadv hready
  cases hadv with
  | openClient hpool => exact h.openClient hph hpool
  | openUpstream hpool => exact h.openUpstream hph hpool
  | link hup => exact h.link hph _
  | free => exact h.free hph
  | idle | exhausted | noUpstream | unresolved | done =>
    exact h.rearrange (hph ▸ .refl _) rfl (fun _ _ => rfl) trivial
  | giveUp hports hpool hheap =>
    refine h.rearrange (hph ▸ .refl _) hpool (fun x hx => hheap x fun heq => hx ?_) trivial
    simp [Phase.objects, heq]
  | @enter f pkt c u tgt sh hports hpool hheap hups hfresh hanswer =>
    have hne : c ≠ u := by
      have hnodup := h.placed.nodup t
      rw [World.held, hph] at hnodup
      exact fun heq => (List.nodup_cons.mp hnodup).1 (heq ▸ List.mem_cons_self)
    refine h.rearrange (hph ▸ .refl _) hpool (fun x hx => hheap x fun heq => hx ?_)
      ⟨hups.trans hready.2.1, by rw [hheap c hne]; exact hready.2.2⟩
    simp [Phase.objects, heq]

theorem Sound.receive (h : Sound w) (pkt : Packet) (fromNic : Bool) (f : AlFargs) :
    Sound (w.receive t pkt fromNic f) := by
  obtain ⟨sh, ph, hw, hstout, -, hpool, hph⟩ := receive_spec w t pkt fromNic f
  rw [hw]
  have hobj : (w.phase t).objects = ph.objects := by
    rcases hph with rfl | ⟨hidle, rfl⟩
    · rfl
    · rw [hidle]
      rfl
  refine h.put ?_ (.of_onlyStout hstout) ((h.linked t).congr fun x _ => ?_) ?_
  · rw [hpool]
    exact h.placed.perm (by rw [World.held, hobj])
  · obtain ⟨n, hn⟩ := hstout x
    rw [hn]
    exact ⟨rfl, rfl⟩
  · rcases hph with rfl | ⟨-, rfl⟩
    · refine (h.ready t).congr fun x _ => ?_
      obtain ⟨n, hn⟩ := hstout x
      rw [hn]
      exact ⟨rfl, rfl⟩
    · trivial

theorem Sound.swept (h : Sound w) {st : Sweep ι}
    (hst : Swept (w.table t) w.shared.heap (w.table t).flatten st) :
    (w.table t).flatten.Perm (st.freed ++ (st.table (w.table t)).flatten) := by
  have hp := (h.linked t).paired
  obtain ⟨hnodup, hfreed, htable, hpaired⟩ := hst.clean hp
  refine (List.perm_ext_iff_of_nodup hp.nodup ?_).mpr fun x => ?_
  · refine List.nodup_append.mpr ⟨hnodup, hpaired.nodup, fun x hx y hy heq => ?_⟩
    rw [htable, mem_flatten_filter, decide_eq_true_iff, ← heq] at hy
    exact Nat.not_le.mpr hy.2 ((hfreed x).mp hx).2
  · rw [List.mem_append, hfreed, htable, mem_flatten_filter, decide_eq_true_iff, ← and_or_left]
    exact (and_iff_left (Nat.lt_or_ge 2 _).symm).symm

theorem Linked.swept {table : List (List ι)} (h : Linked table heap)
    {st : Sweep ι} (hst : Swept table heap table.flatten st) (hstout : OnlyStout heap st.heap) :
    Linked (st.table table) st.heap where
  paired := hst.paired_end h.paired
  size := (List.length_map _).trans h.size
  bucket i b hb x hx := by
    rw [Sweep.table, List.getElem?_map, Option.map_eq_some_iff] at hb
    obtain ⟨b, hb, rfl⟩ := hb
    obtain ⟨n, hn⟩ := hstout x
    rw [hn]
    exact h.bucket i b hb x (List.mem_filter.mp hx).1

theorem Sound.timeout (h : Sound w) (hw : w.timeout t = some w') : Sound w' := by
  rcases timeout_spec hw with rfl | ⟨st, hidle, hst, rfl⟩
  · exact h
  · have hswept := Swept.of_eq_some (h.linked t).paired hst
    have hstout : OnlyStout w.shared.heap st.heap := onlyStout_timeout hst
    refine h.put (h.placed.perm ?_) (.of_onlyStout hstout) ((h.linked t).swept hswept hstout) trivial
    rw [World.held, hidle, Phase.objects, Phase.objects, List.map_map]
    simpa [comp_def] using h.swept hswept

theorem Sound.reorder (h : Sound w) (hw : Service.step w (.reorder pool) = some w') : Sound w' := by
  simp only [Service.step] at hw
  split at hw
  · rename_i hperm
    cases hw
    have hperm := List.isPerm_iff.mp hperm
    exact ⟨⟨hperm.nodup_iff.mpr h.placed.once, h.placed.nodup, h.placed.apart,
      fun t x hx hp => h.placed.out t x hx (hperm.mem_iff.mp hp)⟩, h.linked, h.ready⟩
  · cases hw
    exact h

theorem Sound.step (h : Sound w) {e : Event ι} (hw : Service.step w e = some w') : Sound w' := by
  cases e with
  | receive t pkt fromNic f =>
    cases hw
    exact h.receive pkt fromNic f
  | advance t sys stk => exact h.advance hw
  | timeout t => exact h.timeout hw
  | reorder pool => exact h.reorder hw

def Reached (w : World ι) : Prop :=
  ∃ (heap : ι → Session ι) (pool : List ι) (portStart : UInt16) (evs : List (Event ι)), pool.Nodup ∧
    evs.foldlM step (start heap pool portStart) = some w

theorem Reached.sound (h : Reached w) : Sound w := by
  obtain ⟨heap, pool, portStart, evs, hpool, hrun⟩ := h
  exact Runs.foldlM_invariant (fun _ _ _ _ h hs => h.step hs) (sound_start heap hpool portStart) hrun

end World

end Aware.Service
