import Aware.Service.Alone

/-!
# When a pair times out

A thread sets pairs up, forwards packets on their sessions and sweeps its table. A sweep comes
to a pair twice, once at each of its sessions, and counts both sessions down each time.
-/
namespace Aware.Service
open Function Aware.Sessions

/-- A thread, with the number of sweeps since each session forwarded a packet or was set up; the
program keeps no such number. -/
structure Thread (ι : Type) where
  table : List (List ι)
  heap : ι → Session ι
  ports : Ports
  quiet : ι → ℕ

inductive Act (ι : Type) where
  | pair (c u : ι) (client upstream : Session ι)
  | process (s : ι)
  | sweep

section Model
variable {ι : Type} [DecidableEq ι]

def touch (heap : ι → Session ι) (s : ι) : ι → Session ι :=
  update heap s { heap s with stout := sessionIdleTimeout }

def Thread.pair (th : Thread ι) (c u : ι) (client upstream : Session ι) : Thread ι :=
  let heap := update th.heap u { sessionMemInit upstream true with up := c }
  let heap := update heap c { sessionMemInit client false with up := u }
  { th with
    heap := touch heap c
    table := addPair th.table heap c u
    quiet := update (update th.quiet u 0) c 0 }

def Thread.sweep (th : Thread ι) : Option (Thread ι) :=
  (alSessionTimeout th.table (Sweep.start th.table th.heap th.ports)).map fun st =>
    { table := st.table th.table, heap := st.heap, ports := st.ports, quiet := fun x => th.quiet x + 1 }

def Thread.act (th : Thread ι) : Act ι → Option (Thread ι)
  | .pair c u client upstream =>
    if c ≠ u ∧ c ∉ th.table.flatten ∧ u ∉ th.table.flatten then
      some (th.pair c u client upstream)
    else some th
  | .process s =>
    if s ∈ th.table.flatten then
      some { th with heap := touch th.heap s, quiet := update th.quiet s 0 }
    else some th
  | .sweep => th.sweep

def Thread.start (heap : ι → Session ι) (ports : Ports) : Thread ι :=
  ⟨List.replicate sessionBuckets [], heap, ports, fun _ => 0⟩

def Thread.Reached (th : Thread ι) : Prop :=
  ∃ heap ports acts, List.foldlM Thread.act (Thread.start heap ports) acts = some th

/-- With the sweep that is due, neither the session nor its partner has forwarded a packet during
the last `n` sweeps. -/
def Thread.Silent (th : Thread ι) (n : ℕ) (x : ι) : Prop :=
  n ≤ th.quiet x + 1 ∧ n ≤ th.quiet (th.heap x).up + 1

end Model

section Countdown
variable {ι : Type} {th th' : Thread ι} {x : ι}

structure Thread.Counts (th : Thread ι) : Prop where
  linked : Linked th.table th.heap
  stout : ∀ x ∈ th.table.flatten, (th.heap x).stout = sessionIdleTimeout - 2 * th.quiet x
  live : ∀ x ∈ th.table.flatten, 0 < idle th.heap x

theorem Thread.Counts.idle_eq (h : th.Counts) (hx : x ∈ th.table.flatten) :
    idle th.heap x = max (sessionIdleTimeout - 2 * th.quiet x)
      (sessionIdleTimeout - 2 * th.quiet (th.heap x).up) := by
  rw [idle, h.stout x hx, h.stout _ (h.linked.paired.mem x hx)]

theorem Thread.Counts.idle_le_two (h : th.Counts) (hx : x ∈ th.table.flatten) :
    idle th.heap x ≤ 2 ↔ th.Silent (sessionIdleTimeout / 2) x := by
  rw [h.idle_eq hx, Thread.Silent, sessionIdleTimeout]
  omega

theorem Thread.Counts.not_silent (h : th.Counts) (hx : x ∈ th.table.flatten) :
    ¬ th.Silent sessionIdleTimeout x := by
  have hlive := h.live x hx
  rw [h.idle_eq hx] at hlive
  rw [Thread.Silent]
  simp only [sessionIdleTimeout] at hlive ⊢
  omega

theorem Linked.onlyStout {table : List (List ι)} {heap heap' : ι → Session ι}
    (h : Linked table heap) (hstout : OnlyStout heap heap') : Linked table heap' := by
  refine h.congr fun x _ => ?_
  obtain ⟨n, hn⟩ := hstout x
  rw [hn]
  exact ⟨rfl, rfl⟩

variable [DecidableEq ι]

theorem Thread.sweep_spec (h : th.sweep = some th') :
    ∃ st, alSessionTimeout th.table (Sweep.start th.table th.heap th.ports) = some st ∧
      th' = ⟨st.table th.table, st.heap, st.ports, fun x => th.quiet x + 1⟩ := by
  obtain ⟨st, hst, rfl⟩ := Option.map_eq_some_iff.mp h
  exact ⟨st, hst, rfl⟩

theorem Thread.Counts.sweep (h : th.Counts) (hsweep : th.sweep = some th') : th'.Counts := by
  obtain ⟨st, hst, rfl⟩ := Thread.sweep_spec hsweep
  have hswept := Swept.of_eq_some h.linked.paired hst
  have hmem : ∀ x ∈ (st.table th.table).flatten, x ∈ th.table.flatten ∧ st.linked x = true := by
    intro x hx
    exact mem_flatten_filter.mp hx
  have hstout : ∀ x ∈ (st.table th.table).flatten, (st.heap x).stout = (th.heap x).stout - 2 := by
    intro x hx
    obtain ⟨hx, hlinked⟩ := hmem x hx
    rw [hswept.stout x hx hlinked, passed, if_pos hx, if_pos (h.linked.paired.mem x hx)]
  refine ⟨h.linked.swept hswept (onlyStout_timeout hst), fun x hx => ?_, fun x hx => ?_⟩
  · change (st.heap x).stout = sessionIdleTimeout - 2 * (th.quiet x + 1)
    rw [hstout x hx, h.stout x (hmem x hx).1]
    omega
  · have hlive : 2 < idle th.heap x := by
      obtain ⟨hx, hlinked⟩ := hmem x hx
      rw [hswept.linked_end h.linked.paired hx] at hlinked
      exact of_decide_eq_true hlinked
    have hup := (hswept.paired_end h.linked.paired).mem x hx
    rw [hswept.up] at hup
    change 0 < idle st.heap x
    rw [idle] at hlive ⊢
    rw [hswept.up, hstout x hx, hstout _ hup]
    omega

theorem onlyStout_touch (heap : ι → Session ι) (s : ι) : OnlyStout heap (touch heap s) := by
  intro x
  rcases eq_or_ne x s with rfl | hx
  · exact ⟨_, update_self ..⟩
  · exact ⟨_, update_of_ne hx _ _⟩

theorem stout_touch (heap : ι → Session ι) (s x : ι) :
    (touch heap s x).stout = if x = s then sessionIdleTimeout else (heap x).stout := by
  split
  · rename_i hx
    rw [touch, hx, update_self]
  · rename_i hx
    rw [touch, update_of_ne hx]

theorem up_touch (heap : ι → Session ι) (s x : ι) : (touch heap s x).up = (heap x).up := by
  obtain ⟨n, hn⟩ := onlyStout_touch heap s x
  rw [hn]

theorem Thread.Counts.process (h : th.Counts) {s : ι} :
    Thread.Counts { th with heap := touch th.heap s, quiet := update th.quiet s 0 } := by
  have hle : ∀ x ∈ th.table.flatten, (th.heap x).stout ≤ (touch th.heap s x).stout := by
    intro x hx
    rw [stout_touch, h.stout x hx]
    split
    · exact Nat.sub_le _ _
    · exact Nat.le_refl _
  refine ⟨h.linked.onlyStout (onlyStout_touch th.heap s), fun x hx => ?_, fun x hx => ?_⟩
  · change (touch th.heap s x).stout = sessionIdleTimeout - 2 * update th.quiet s 0 x
    rw [stout_touch, update_apply]
    split
    · rfl
    · exact h.stout x hx
  · refine (h.live x hx).trans_le ?_
    change idle th.heap x ≤ idle (touch th.heap s) x
    rw [idle, idle, up_touch]
    exact max_le_max (hle x hx) (hle _ (h.linked.paired.mem x hx))

theorem Thread.Counts.pair (h : th.Counts) {c u : ι} (hcu : c ≠ u) (hc : c ∉ th.table.flatten)
    (hu : u ∉ th.table.flatten) (client upstream : Session ι) :
    (th.pair c u client upstream).Counts := by
  -- the heap before `al_process` touches the client session
  let heap := update (update th.heap u { sessionMemInit upstream true with up := c })
    c { sessionMemInit client false with up := u }
  have hclient : heap c = { sessionMemInit client false with up := u } := update_self ..
  have hup : heap u = { sessionMemInit upstream true with up := c } :=
    (update_of_ne hcu.symm _ _).trans (update_self ..)
  have hold : ∀ x ∈ th.table.flatten, heap x = th.heap x := by
    intro x hx
    have hxc : x ≠ c := fun heq => hc (heq ▸ hx)
    have hxu : x ≠ u := fun heq => hu (heq ▸ hx)
    exact (update_of_ne hxc _ _).trans (update_of_ne hxu _ _)
  have hnodup : (u :: c :: th.table.flatten).Nodup := by
    refine List.nodup_cons.mpr ⟨?_, List.nodup_cons.mpr ⟨hc, h.linked.paired.nodup⟩⟩
    rw [List.mem_cons, not_or]
    exact ⟨hcu.symm, hu⟩
  have hlinked : Linked (addPair th.table heap c u) heap := by
    refine Linked.addPair (h.linked.congr fun x hx => ?_) hnodup (by rw [hclient]) (by rw [hup])
    rw [hold x hx]
    exact ⟨rfl, rfl⟩
  have hmem : ∀ x, x ∈ (addPair th.table heap c u).flatten → x = u ∨ x = c ∨ x ∈ th.table.flatten := by
    intro x hx
    rw [(flatten_addPair h.linked.size heap c u).mem_iff, List.mem_cons, List.mem_cons] at hx
    exact hx
  have hstout : ∀ x ∈ (addPair th.table heap c u).flatten, (touch heap c x).stout =
      sessionIdleTimeout - 2 * update (update th.quiet u 0) c 0 x := by
    intro x hx
    rw [stout_touch]
    rcases hmem x hx with rfl | rfl | hx
    · rw [if_neg hcu.symm, hup, update_of_ne hcu.symm, update_self]
      rfl
    · rw [if_pos rfl, update_self]
      rfl
    · have hxc : x ≠ c := fun heq => hc (heq ▸ hx)
      have hxu : x ≠ u := fun heq => hu (heq ▸ hx)
      rw [if_neg hxc, hold x hx, update_of_ne hxc, update_of_ne hxu]
      exact h.stout x hx
  refine ⟨hlinked.onlyStout (onlyStout_touch heap c), hstout, fun x hx => ?_⟩
  change 0 < idle (touch heap c) x
  rcases hmem x hx with rfl | rfl | hxt
  · rw [idle, hstout x hx, update_of_ne hcu.symm, update_self]
    exact lt_max_of_lt_left (by decide)
  · rw [idle, hstout x hx, update_self]
    exact lt_max_of_lt_left (by decide)
  · have hupt := h.linked.paired.mem x hxt
    have hxc : x ≠ c := fun heq => hc (heq ▸ hxt)
    have huc : (th.heap x).up ≠ c := fun heq => hc (heq ▸ hupt)
    rw [idle, up_touch, hold x hxt, stout_touch, stout_touch, if_neg hxc, if_neg huc, hold x hxt,
      hold _ hupt]
    exact h.live x hxt

theorem Thread.Counts.act (h : th.Counts) {a : Act ι} (hact : th.act a = some th') : th'.Counts := by
  cases a with
  | pair c u client upstream =>
    simp only [Thread.act] at hact
    split at hact
    · rename_i hnew
      cases hact
      exact h.pair hnew.1 hnew.2.1 hnew.2.2 client upstream
    · cases hact
      exact h
  | process s =>
    simp only [Thread.act] at hact
    split at hact
    · cases hact
      exact h.process
    · cases hact
      exact h
  | sweep => exact h.sweep hact

omit [DecidableEq ι] in
theorem Thread.not_mem_start (heap : ι → Session ι) (ports : Ports) (x : ι) :
    x ∉ (Thread.start heap ports).table.flatten := by
  rw [Thread.start, List.flatten_replicate_nil]
  exact List.not_mem_nil

omit [DecidableEq ι] in
theorem Thread.Counts.start (heap : ι → Session ι) (ports : Ports) :
    (Thread.start heap ports).Counts where
  linked := linked_replicate heap
  stout x hx := absurd hx (Thread.not_mem_start heap ports x)
  live x hx := absurd hx (Thread.not_mem_start heap ports x)

theorem Thread.Reached.counts (h : th.Reached) : th.Counts := by
  obtain ⟨heap, ports, acts, hrun⟩ := h
  exact Runs.foldlM_invariant (fun _ _ _ _ hs hstep => hs.act hstep) (Thread.Counts.start heap ports) hrun

theorem Thread.Counts.removed_iff (h : th.Counts) (hsweep : th.sweep = some th')
    (hx : x ∈ th.table.flatten) :
    x ∉ th'.table.flatten ↔ th.Silent (sessionIdleTimeout / 2) x := by
  obtain ⟨st, hst, rfl⟩ := Thread.sweep_spec hsweep
  have hswept := Swept.of_eq_some h.linked.paired hst
  change x ∉ (th.table.map fun b => b.filter st.linked).flatten ↔ _
  rw [mem_flatten_filter, and_iff_right hx, hswept.linked_end h.linked.paired hx, decide_eq_true_iff,
    Nat.not_lt, h.idle_le_two hx]

/-- A sweep treats a pair as its idle time says exactly when the pair has forwarded a packet
within half of that time. -/
theorem sweep_removes_idle_iff (h : th.Reached) (hsweep : th.act .sweep = some th')
    (hx : x ∈ th.table.flatten) :
    (x ∉ th'.table.flatten ↔ th.Silent sessionIdleTimeout x) ↔
      ¬ th.Silent (sessionIdleTimeout / 2) x := by
  have hcounts := h.counts
  rw [hcounts.removed_iff hsweep hx, iff_false_right (hcounts.not_silent hx)]

def Thread.Apart (th : Thread ι) : Prop :=
  ∀ x ∈ th.table.flatten, bucketOf (th.heap x).key ≠ bucketOf (th.heap (th.heap x).up).key

omit [DecidableEq ι] in
theorem Thread.Apart.not_hazard (h : th.Apart) (hl : Linked th.table th.heap) :
    ¬ Hazard th.heap th.table := by
  apply not_hazard_of_apart
  intro b hb x hx hup
  obtain ⟨i, hi⟩ := List.mem_iff_getElem?.mp hb
  apply h x (List.mem_flatten.mpr ⟨b, hb, hx⟩)
  rw [hl.bucket i b hi x hx, hl.bucket i b hi _ hup]

theorem Thread.Apart.sweep (h : th.Apart) (hsweep : th.sweep = some th') : th'.Apart := by
  obtain ⟨st, hst, rfl⟩ := Thread.sweep_spec hsweep
  have hsame : ∀ x, (st.heap x).key = (th.heap x).key ∧ (st.heap x).up = (th.heap x).up := by
    intro x
    obtain ⟨n, hn⟩ := onlyStout_timeout hst x
    change st.heap x = { th.heap x with stout := n } at hn
    rw [hn]
    exact ⟨rfl, rfl⟩
  intro x hx
  change bucketOf (st.heap x).key ≠ bucketOf (st.heap (st.heap x).up).key
  rw [(hsame x).1, (hsame x).2, (hsame _).1]
  exact h x (mem_flatten_filter.mp hx).1

theorem Thread.Apart.sweep_succeeds (h : th.Apart) (hl : Linked th.table th.heap) :
    ∃ th', th.sweep = some th' ∧ ∀ x, th'.quiet x = th.quiet x + 1 := by
  obtain ⟨st, hst, -⟩ := Swept.of_not_hazard hl.paired th.ports (h.not_hazard hl)
  refine ⟨⟨st.table th.table, st.heap, st.ports, fun x => th.quiet x + 1⟩, ?_, fun x => rfl⟩
  rw [Thread.sweep, hst, Option.map_some]

theorem Thread.mem_of_sweep (h : th.sweep = some th') (hx : x ∈ th'.table.flatten) :
    x ∈ th.table.flatten := by
  obtain ⟨st, -, rfl⟩ := Thread.sweep_spec h
  exact (mem_flatten_filter.mp hx).1

theorem Thread.Counts.sweeps (n : ℕ) (h : th.Counts) (hapart : th.Apart)
    (hn : ∀ x ∈ th.table.flatten, th.quiet x + n < sessionIdleTimeout / 2) :
    ∃ th', List.foldlM Thread.act th (List.replicate n .sweep) = some th' ∧ th'.Counts ∧ th'.Apart ∧
      (∀ x, x ∈ th'.table.flatten ↔ x ∈ th.table.flatten) ∧ ∀ x, th'.quiet x = th.quiet x + n := by
  induction n generalizing th with
  | zero => exact ⟨th, rfl, h, hapart, fun _ => Iff.rfl, fun _ => rfl⟩
  | succ n ih =>
    obtain ⟨th₁, hsweep, hquiet₁⟩ := hapart.sweep_succeeds h.linked
    have hkept : ∀ x ∈ th.table.flatten, x ∈ th₁.table.flatten := by
      intro x hx
      by_contra hgone
      have hlong := ((h.removed_iff hsweep hx).mp hgone).1
      have hrecent := hn x hx
      omega
    have hn₁ : ∀ x ∈ th₁.table.flatten, th₁.quiet x + n < sessionIdleTimeout / 2 := by
      intro x hx
      rw [hquiet₁, Nat.add_assoc, Nat.add_comm 1]
      exact hn x (Thread.mem_of_sweep hsweep hx)
    obtain ⟨th', hrun, hcounts, hapart', hmem, hquiet⟩ := ih (h.sweep hsweep) (hapart.sweep hsweep) hn₁
    refine ⟨th', ?_, hcounts, hapart', fun x => ?_, fun x => ?_⟩
    · rw [List.replicate_succ, List.foldlM_cons, Thread.act, hsweep]
      exact hrun
    · rw [hmem x]
      exact ⟨Thread.mem_of_sweep hsweep, hkept x⟩
    · rw [hquiet x, hquiet₁, Nat.add_assoc, Nat.add_comm 1]

end Countdown

def emptyThread : Thread ℕ := Thread.start (fun _ => blankSession) ⟨[], []⟩

def freshPair : Thread ℕ :=
  emptyThread.pair 0 1 blankSession { blankSession with proto := 6 }

theorem freshPair_reached : freshPair.Reached := by
  have hempty : ∀ x, x ∉ emptyThread.table.flatten := Thread.not_mem_start _ _
  refine ⟨fun _ => blankSession, ⟨[], []⟩, [.pair 0 1 blankSession { blankSession with proto := 6 }], ?_⟩
  rw [List.foldlM_cons]
  change (Thread.act emptyThread _ >>= _) = _
  rw [Thread.act, if_pos ⟨Nat.zero_ne_one, hempty 0, hempty 1⟩]
  rfl

theorem mem_freshPair (x : ℕ) : x ∈ freshPair.table.flatten ↔ x = 1 ∨ x = 0 := by
  have hsize : emptyThread.table.length = sessionBuckets := List.length_replicate
  have hempty : x ∉ emptyThread.table.flatten := Thread.not_mem_start _ _ x
  rw [freshPair, Thread.pair, (flatten_addPair hsize _ 0 1).mem_iff, List.mem_cons, List.mem_cons,
    or_iff_left hempty]

theorem freshPair_apart : freshPair.Apart := by
  intro x hx
  rcases (mem_freshPair x).mp hx with rfl | rfl
  · decide +kernel
  · decide +kernel

theorem fresh_pair_is_kept : ∃ th', freshPair.Reached ∧ freshPair.act .sweep = some th' ∧
    0 ∈ freshPair.table.flatten ∧ ((0 ∉ th'.table.flatten ↔ freshPair.Silent sessionIdleTimeout 0) ↔
      ¬ freshPair.Silent (sessionIdleTimeout / 2) 0) := by
  have h := freshPair_reached
  have hx : 0 ∈ freshPair.table.flatten := (mem_freshPair 0).mpr (.inr rfl)
  obtain ⟨th', hsweep, -⟩ := freshPair_apart.sweep_succeeds h.counts.linked
  exact ⟨th', h, hsweep, hx, sweep_removes_idle_iff h hsweep hx⟩

theorem pair_removed_after_half_of_the_idle_time : ∃ th th' : Thread ℕ, th.Reached ∧
    th.act .sweep = some th' ∧ 0 ∈ th.table.flatten ∧ 0 ∉ th'.table.flatten ∧
      ¬ th.Silent sessionIdleTimeout 0 := by
  have hquiet₀ : ∀ x ∈ freshPair.table.flatten, freshPair.quiet x + 149 < sessionIdleTimeout / 2 := by
    intro x hx
    rcases (mem_freshPair x).mp hx with rfl | rfl
    · decide
    · decide
  obtain ⟨th, hrun, hcounts, hapart, hmem, hquiet⟩ :=
    freshPair_reached.counts.sweeps 149 freshPair_apart hquiet₀
  obtain ⟨th', hsweep, -⟩ := hapart.sweep_succeeds hcounts.linked
  have hx : 0 ∈ th.table.flatten := (hmem 0).mpr ((mem_freshPair 0).mpr (.inr rfl))
  have hsilent : th.Silent (sessionIdleTimeout / 2) 0 := by
    rw [Thread.Silent, hquiet, hquiet, sessionIdleTimeout]
    omega
  refine ⟨th, th', ?_, hsweep, hx, (hcounts.removed_iff hsweep hx).mpr hsilent, hcounts.not_silent hx⟩
  obtain ⟨heap, ports, acts, hfresh⟩ := freshPair_reached
  refine ⟨heap, ports, acts ++ List.replicate 149 .sweep, ?_⟩
  rw [List.foldlM_append, hfresh, Option.bind_eq_bind, Option.bind_some, hrun]

end Aware.Service
