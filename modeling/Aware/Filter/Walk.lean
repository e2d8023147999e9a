import Aware.Filter.Nodes

/-!
# The listing of the filters

`al_filter_tree_walk` goes through the nodes of the tree and prints a line for each filter. The scan of
an overflow cluster is bounded by the counter of the cluster inside the node.
-/
namespace Aware.Filter.Nodes
open Aware.Tree
open RedBlack (Frame plug)
open Cluster (Visit scanSlots visitSlots scanSlots_eq_visit scanSlots_overrun)

structure Line where
  index : ℕ
  fid : UInt32
  gid : UInt32
  port : UInt16
  type : UInt8
  key : UInt64
deriving DecidableEq, Repr

def ntohs (x : UInt16) : UInt16 := htons x

def line (key : UInt64) (m : AlFilter) (index : ℕ) : Line :=
  ⟨index, m.fid, m.gid, ntohs m.port, m.type, key⟩

structure Output where
  index : ℕ
  lines : List Line
deriving DecidableEq, Repr

def print (key : UInt64) (_ : ℕ) (o : Output) (m : AlFilter) : Visit AlFilter Output Empty :=
  .next ⟨o.index + 1, o.lines ++ [line key m o.index]⟩ m

def printClusters (key : UInt64) (cnt : ℕ) : List FilterCluster → Output → Option Output
  | [], o => some o
  | c :: rest, o =>
    match scanSlots AlFilter.isUsed (print key) c.m cnt 0 o with
    | .done o _ => printClusters key cnt rest o
    | .stopped r _ => r.elim
    | .overrun => none

/-- Both loops of the source have `mc->cnt` as their bound. -/
def printChain (key : UInt64) (mc : AlFilterChain) : Option (List Line) :=
  (printClusters key mc.inl.cnt.toNat (mc.inl :: mc.list) ⟨0, []⟩).map Output.lines

def alFilterTreeWalk (s : Table) : ℕ → Ptr → Option (List Line)
  | 0, _ => none
  | fuel + 1, t =>
    if t = s.mem.sentinel then some []
    else do
      let l ← s.mem.childOf .left t
      let left ← alFilterTreeWalk s fuel l
      let r ← s.mem.childOf .right t
      let right ← alFilterTreeWalk s fuel r
      let mc ← s.chain t
      let key ← s.mem.keyOf t
      let own ← printChain key mc
      pure (left ++ right ++ own)

section Spec

def chainLines (key : UInt64) (mc : AlFilterChain) : List Line :=
  mc.filters.zipIdx.map fun x => line key x.1 x.2

def Table.listing (s : Table) (nodes : List Ptr) : List Line :=
  nodes.flatMap fun p => ((s.chain p).map (chainLines (s.mem.key p))).getD []

/-- The walk comes to an end inside the clusters, and prints every filter of the tree once. -/
def Table.Listed (s : Table) (t : Tree.Nodes) : Prop :=
  ∃ fuel lines, alFilterTreeWalk s fuel s.mem.root = some lines ∧ lines.Perm (s.listing t.inorder)

def Even (c : AlFilterChain) : Prop :=
  ∀ mc ∈ c.list, mc.cnt = c.inl.cnt

instance (c : AlFilterChain) : Decidable (Even c) :=
  inferInstanceAs (Decidable (∀ mc ∈ c.list, mc.cnt = c.inl.cnt))

def Table.Even (s : Table) (t : Tree.Nodes) : Prop :=
  ∀ p ∈ t.inorder, ∀ c, s.chain p = some c → Nodes.Even c

end Spec

section Chain
variable {key : UInt64}

def Output.after (o : Output) (key : UInt64) (ms : List AlFilter) : Output :=
  ⟨o.index + ms.length, o.lines ++ (ms.zipIdx o.index).map fun x => line key x.1 x.2⟩

theorem Output.after_append (o : Output) (key : UInt64) (ms ms' : List AlFilter) :
    o.after key (ms ++ ms') = (o.after key ms).after key ms' := by
  simp only [Output.after, List.length_append, List.zipIdx_append, List.map_append, List.append_assoc,
    Nat.add_assoc]

theorem visitSlots_print (l : List AlFilter) (j : ℕ) (o : Output) :
    visitSlots AlFilter.isUsed (print key) l j o = .done (o.after key (l.filter AlFilter.isUsed)) l := by
  induction l generalizing j o with
  | nil => simp [visitSlots, Output.after]
  | cons m l ih =>
    by_cases hm : m.isUsed = true
    · have hcons := o.after_append key [m] (l.filter AlFilter.isUsed)
      rw [List.singleton_append] at hcons
      rw [visitSlots, if_pos hm, List.filter_cons_of_pos hm, hcons]
      simp only [print, ih, Cluster.Outcome.map]
      rfl
    · rw [visitSlots, if_neg hm, List.filter_cons_of_neg hm, ih]
      rfl

theorem printClusters_exact {cnt : ℕ} {cs : List FilterCluster}
    (h : ∀ c ∈ cs, c.m.countP AlFilter.isUsed = cnt) (o : Output) :
    printClusters key cnt cs o = some (o.after key ((cs.flatMap Cluster.m).filter AlFilter.isUsed)) := by
  induction cs generalizing o with
  | nil => simp [printClusters, Output.after]
  | cons c cs ih =>
    rw [List.forall_mem_cons] at h
    have hscan := scanSlots_eq_visit AlFilter.isUsed (print key) c.m h.1 0 o
    rw [visitSlots_print] at hscan
    simp only [printClusters, hscan]
    rw [ih h.2, List.flatMap_cons, List.filter_append, Output.after_append]

theorem printClusters_overrun (key : UInt64) {cnt : ℕ} {cs : List FilterCluster}
    (hle : ∀ c ∈ cs, c.m.countP AlFilter.isUsed ≤ cnt)
    (hlt : ∃ c ∈ cs, c.m.countP AlFilter.isUsed < cnt) (o : Output) : printClusters key cnt cs o = none := by
  induction cs generalizing o with
  | nil =>
    obtain ⟨c, hc, -⟩ := hlt
    cases hc
  | cons c cs ih =>
    rw [List.forall_mem_cons] at hle
    rcases Nat.lt_or_eq_of_le hle.1 with hshort | hexact
    · have hscan := scanSlots_overrun AlFilter.isUsed (print key) (fun _ _ _ _ _ => by simp [print]) c.m
        hshort 0 o
      simp only [printClusters, hscan]
    · have hscan := scanSlots_eq_visit AlFilter.isUsed (print key) c.m hexact 0 o
      rw [visitSlots_print] at hscan
      simp only [printClusters, hscan]
      apply ih hle.2
      obtain ⟨d, hd, hlt⟩ := hlt
      rcases List.mem_cons.mp hd with rfl | hd
      · exact absurd hexact (Nat.ne_of_lt hlt)
      · exact ⟨d, hd, hlt⟩

theorem printChain_even {c : AlFilterChain} (h : c.Sound) (heven : Even c) :
    printChain key c = some (chainLines key c) := by
  have hexact : ∀ mc ∈ c.inl :: c.list, mc.m.countP AlFilter.isUsed = c.inl.cnt.toNat := by
    rw [List.forall_mem_cons]
    refine ⟨h.exact.symm, fun mc hmc => ?_⟩
    rw [← heven mc hmc]
    exact (h.single mc hmc).exact.symm
  rw [printChain, printClusters_exact hexact]
  simp [Output.after, chainLines, AlFilterChain.filters]

theorem even_of_printChain {c : AlFilterChain} (h : c.Sound) (hnums : 0 < c.nums) {lines : List Line}
    (hprint : printChain key c = some lines) : Even c := by
  have hpos : 1 ≤ c.inl.cnt.toNat :=
    Nat.le_trans (UInt16.lt_iff_toNat_lt.mp hnums) (UInt16.le_iff_toNat_le.mp h.nums)
  have hcount : ∀ mc ∈ c.list, mc.cnt.toNat = mc.m.countP AlFilter.isUsed :=
    fun mc hmc => (h.single mc hmc).exact
  intro mc hmc
  by_contra hne
  have hshort : mc.m.countP AlFilter.isUsed < c.inl.cnt.toNat := by
    have hle := (h.single mc hmc).cnt_le_one
    have hne' : mc.cnt.toNat ≠ c.inl.cnt.toNat := fun heq => hne (UInt16.toNat_inj.mp heq)
    rw [← hcount mc hmc]
    omega
  have hle : ∀ d ∈ c.inl :: c.list, d.m.countP AlFilter.isUsed ≤ c.inl.cnt.toNat := by
    rw [List.forall_mem_cons]
    refine ⟨Nat.le_of_eq h.exact.symm, fun d hd => ?_⟩
    rw [← hcount d hd]
    exact Nat.le_trans (h.single d hd).cnt_le_one hpos
  rw [printChain, printClusters_overrun key hle ⟨mc, List.mem_cons_of_mem _ hmc, hshort⟩] at hprint
  cases hprint

end Chain

section Walk
variable {s : Table} {t : Tree.Nodes} {z : List (Frame Ptr)} {fuel : ℕ}

theorem printChain_of_walk (h : Holds s.mem (plug z t)) {lines : List Line}
    (hw : alFilterTreeWalk s fuel (ptr s.mem t) = some lines) :
    ∀ p ∈ t.inorder, ∃ c own, s.chain p = some c ∧ printChain (s.mem.key p) c = some own := by
  induction t generalizing z fuel lines with
  | leaf =>
    intro p hp
    cases hp
  | node c l x r ihl ihr =>
    cases fuel with
    | zero => cases hw
    | succ fuel =>
      have hleft : Holds s.mem (plug (⟨.left, c, x, r⟩ :: z) l) := h
      have hright : Holds s.mem (plug (⟨.right, c, x, l⟩ :: z) r) := h
      have hkey : s.mem.keyOf x = some (s.mem.key x) := read_live s.mem s.mem.key h.ptr_live
      have hl : s.mem.childOf .left x = some (ptr s.mem l) := Holds.childOf (d := .left) h
      have hr : s.mem.childOf .right x = some (ptr s.mem r) := Holds.childOf_other (d := .left) h
      rw [alFilterTreeWalk, if_neg (mt h.ptr_eq_sentinel.mp (by simp))] at hw
      change ((s.mem.childOf .left x).bind _) = some lines at hw
      rw [hl, Option.bind_some] at hw
      obtain ⟨left, hwl, hw⟩ := Option.bind_eq_some_iff.mp hw
      change ((s.mem.childOf .right x).bind _) = some lines at hw
      rw [hr, Option.bind_some] at hw
      obtain ⟨right, hwr, hw⟩ := Option.bind_eq_some_iff.mp hw
      obtain ⟨mc, hmc, hw⟩ := Option.bind_eq_some_iff.mp hw
      change ((s.mem.keyOf x).bind _) = some lines at hw
      rw [hkey, Option.bind_some] at hw
      obtain ⟨own, hown, -⟩ := Option.bind_eq_some_iff.mp hw
      intro p hp
      rw [RedBlack.Tree.inorder, List.mem_append, List.mem_cons] at hp
      rcases hp with hp | rfl | hp
      · exact ihl hleft hwl p hp
      · exact ⟨mc, own, hmc, hown⟩
      · exact ihr hright hwr p hp

theorem walk_listing (h : Holds s.mem (plug z t)) (hfuel : t.inorder.length < fuel)
    (hall : ∀ p ∈ t.inorder, ∃ c, s.chain p = some c ∧
      printChain (s.mem.key p) c = some (chainLines (s.mem.key p) c)) :
    ∃ lines, alFilterTreeWalk s fuel (ptr s.mem t) = some lines ∧ lines.Perm (s.listing t.inorder) := by
  induction t generalizing z fuel with
  | leaf =>
    cases fuel with
    | zero => exact absurd hfuel (Nat.not_lt_zero _)
    | succ fuel => exact ⟨[], if_pos rfl, .refl _⟩
  | node c l x r ihl ihr =>
    cases fuel with
    | zero => exact absurd hfuel (Nat.not_lt_zero _)
    | succ fuel =>
      have hleft : Holds s.mem (plug (⟨.left, c, x, r⟩ :: z) l) := h
      have hright : Holds s.mem (plug (⟨.right, c, x, l⟩ :: z) r) := h
      have hkey : s.mem.keyOf x = some (s.mem.key x) := read_live s.mem s.mem.key h.ptr_live
      rw [RedBlack.Tree.inorder, List.forall_mem_append, List.forall_mem_cons] at hall
      rw [RedBlack.Tree.inorder, List.length_append, List.length_cons] at hfuel
      obtain ⟨hl, ⟨mc, hmc, hprint⟩, hr⟩ := hall
      have hshort : l.inorder.length < fuel ∧ r.inorder.length < fuel := by omega
      obtain ⟨left, hwl, hpl⟩ := ihl hleft hshort.1 hl
      obtain ⟨right, hwr, hpr⟩ := ihr hright hshort.2 hr
      refine ⟨left ++ right ++ chainLines (s.mem.key x) mc, ?_, ?_⟩
      · rw [alFilterTreeWalk, if_neg (mt h.ptr_eq_sentinel.mp (by simp))]
        refine and_then (Holds.childOf (d := .left) h) (and_then hwl ?_)
        refine and_then (Holds.childOf_other (d := .left) h) (and_then hwr ?_)
        exact and_then hmc (and_then hkey (and_then hprint rfl))
      · have hlist : s.listing (RedBlack.Tree.node c l x r).inorder =
            s.listing l.inorder ++ (chainLines (s.mem.key x) mc ++ s.listing r.inorder) := by
          simp [Table.listing, RedBlack.Tree.inorder, hmc]
        rw [hlist, List.append_assoc]
        exact hpl.append ((hpr.append_right _).trans List.perm_append_comm)

theorem Table.Sound.listed (h : s.Sound t) (heven : s.Even t) : s.Listed t := by
  have hplace : Holds s.mem (plug [] t) := h.holds
  obtain ⟨lines, hlines, hperm⟩ := walk_listing hplace (Nat.lt_succ_self _) fun p hp => by
    obtain ⟨c, hc, hsound, -⟩ := h.chains p hp
    exact ⟨c, hc, printChain_even hsound (heven p hp c hc)⟩
  rw [← h.holds.root] at hlines
  exact ⟨_, lines, hlines, hperm⟩

theorem Table.Sound.even (h : s.Sound t) {lines : List Line}
    (hw : alFilterTreeWalk s fuel s.mem.root = some lines) : s.Even t := by
  have hplace : Holds s.mem (plug [] t) := h.holds
  rw [h.holds.root] at hw
  intro p hp c hc
  obtain ⟨c', hc', hsound, hnums⟩ := h.chains p hp
  obtain ⟨c'', own, hc'', hprint⟩ := printChain_of_walk hplace hw p hp
  cases hc.symm.trans hc'
  cases hc.symm.trans hc''
  exact even_of_printChain hsound hnums hprint

/-- The walk lists the filters exactly when each overflow cluster has as many filters as the
cluster inside its node. -/
theorem walk_lists_iff {sentinel : Ptr} {ops : List Op} (h : Reached sentinel ops s) (ht : Holds s.mem t) :
    s.Listed t ↔ s.Even t := by
  obtain ⟨t', hsound⟩ := h.sound
  cases ht.unique hsound.holds
  constructor
  · intro hlisted
    obtain ⟨fuel, lines, hw, -⟩ := hlisted
    exact hsound.even hw
  · exact hsound.listed

end Walk

def firstBlock : Malloc where
  answer live := ((List.range 16).find? fun p => !live p).map fun p => (p, (alFilterInit p).mem, blank)
  unused live p old cluster h := by
    obtain ⟨q, hq, heq⟩ := Option.map_eq_some_iff.mp h
    cases heq
    simpa using List.find?_some hq

def insertWide (id : UInt32) : Op := .insert (wide id) ⟨0, true, firstBlock, some blank⟩

def nineFilters : List Op := [1, 2, 3, 4, 5, 6, 7, 8, 9].map insertWide

def twoFilters : List Op := nineFilters ++ [1, 2, 3, 4, 5, 6, 7].map fun id => .del (wide id)

def Table.rootCounts (s : Table) : Option (UInt16 × List UInt16) :=
  (s.chain s.mem.root).map fun c => (c.inl.cnt, c.list.map Cluster.cnt)

theorem two_filters_listed :
    ∃ s t, Reached 1 twoFilters s ∧ Holds s.mem t ∧ s.rootCounts = some (1, [1]) ∧ s.Listed t := by
  have hrun : (twoFilters.foldlM (step (twoFilters.length + 1)) (alFilterInit 1)).map (fun s =>
      (s.rootCounts, (alFilterTreeWalk s 2 s.mem.root).isSome)) = some (some (1, [1]), true) := by
    decide +kernel
  obtain ⟨s, hs, hpair⟩ := Option.map_eq_some_iff.mp hrun
  obtain ⟨hcounts, hsome⟩ := Prod.mk.inj hpair
  have hreached : Reached 1 twoFilters s := hs
  obtain ⟨t, ht⟩ := hreached.sound
  obtain ⟨lines, hlines⟩ := Option.isSome_iff_exists.mp hsome
  exact ⟨s, t, hreached, ht.holds, hcounts, (walk_lists_iff hreached ht.holds).mpr (ht.even hlines)⟩

theorem ninth_filter_overrun :
    ∃ s, Reached 1 nineFilters s ∧ ∀ t, Holds s.mem t → ¬ s.Listed t := by
  have hrun : (nineFilters.foldlM (step (nineFilters.length + 1)) (alFilterInit 1)).map (fun s =>
      (s.rootCounts, decide (s.mem.root = s.mem.sentinel))) = some (some (8, [1]), false) := by
    decide +kernel
  obtain ⟨s, hs, hpair⟩ := Option.map_eq_some_iff.mp hrun
  obtain ⟨hcounts, hroot⟩ := Prod.mk.inj hpair
  have hreached : Reached 1 nineFilters s := hs
  refine ⟨s, hreached, fun t ht hlisted => ?_⟩
  obtain ⟨t', hsound⟩ := hreached.sound
  cases ht.unique hsound.holds
  obtain ⟨fuel, lines, hw, -⟩ := hlisted
  obtain ⟨c, hc, heq⟩ := Option.map_eq_some_iff.mp hcounts
  obtain ⟨hcnt, hlist⟩ := Prod.mk.inj heq
  have hmem : s.mem.root ∈ t.inorder := by
    rw [ht.root]
    apply ptr_mem
    intro hleaf
    rw [ht.root, hleaf] at hroot
    exact absurd rfl (of_decide_eq_false hroot)
  have heven := hsound.even hw s.mem.root hmem c hc
  cases hl : c.list with
  | nil =>
    rw [hl] at hlist
    cases hlist
  | cons mc rest =>
    rw [hl, List.map_cons] at hlist
    have hone := heven mc (by rw [hl]; exact List.mem_cons_self)
    rw [hcnt, (List.cons.inj hlist).1] at hone
    exact absurd hone (by decide)

end Aware.Filter.Nodes
