import Aware.Lib.Cluster
import Aware.Address

/-!
The filters of one prefix: a cluster inside the node of the prefix and overflow clusters on a
list beside it, with a count of all of them that is kept by hand.
-/
namespace Aware.Filter

open Cluster (seek)

def filterClusterSize : ℕ := 8

structure AlFilter where
  isUsed : Bool
  fid : UInt32
  gid : UInt32
  type : UInt8
  port : UInt16
  proto : UInt8
  deriving DecidableEq, Repr

structure FilterConf where
  id : UInt32
  gid : UInt32
  filterType : UInt8
  proto : UInt8
  port : UInt16
  deriving DecidableEq, Repr

structure AlFargs where
  fid : UInt32
  gid : UInt32
  ftype : UInt8
  deriving DecidableEq, Repr

abbrev FilterCluster := Cluster AlFilter filterClusterSize

/-- `al_filter_chain_t`; the newest overflow cluster comes first. -/
structure AlFilterChain where
  nums : UInt16
  inl : FilterCluster
  list : List FilterCluster

def alSetFilter (conf : FilterConf) : AlFilter :=
  ⟨true, conf.id, conf.gid, conf.filterType, htons conf.port, conf.proto⟩

def initFc (c : FilterCluster) : FilterCluster :=
  ⟨c.cnt, c.m.map fun m => { m with isUsed := false }, by rw [List.length_map, c.size]⟩

def newChain (mem : FilterCluster) : AlFilterChain :=
  ⟨0, { initFc mem with cnt := 0 }, []⟩

def ipprotoIp : UInt8 := 0

def AlFilter.matches (port : UInt16) (proto : UInt8) (m : AlFilter) : Bool :=
  m.port == port && (m.proto == proto || m.proto == ipprotoIp)

def AlFilter.fargs (m : AlFilter) : AlFargs :=
  ⟨m.fid, m.gid, m.type⟩

def lookupClusters (port : UInt16) (proto : UInt8) :
    List FilterCluster → Option (Option AlFilter)
  | [] => some none
  | mc :: rest =>
    match mc.scan AlFilter.isUsed (seek (AlFilter.matches port proto) id) 0 false with
    | .stopped m _ => some (some m)
    | .done _ _ => lookupClusters port proto rest
    | .overrun => none

def alFilterLookup (c : AlFilterChain) (port : UInt16) (proto : UInt8) :
    Option (Option AlFilter) :=
  lookupClusters port proto (c.inl :: c.list)

def release (m : AlFilter) : AlFilter :=
  { m with isUsed := false }

/-- One cluster of `al_filter_delete`: whether the filter was there, whether the cluster still
has a used slot, and the cluster afterwards. -/
def deleteIn (fid : UInt32) (mc : FilterCluster) : Option (Bool × Bool × FilterCluster) :=
  match mc.scan AlFilter.isUsed (seek (fun m => m.fid == fid) release) 0 false with
  | .stopped _ mc' => some (true, true, { mc' with cnt := mc'.cnt - 1 })
  | .done s mc' => some (false, s, mc')
  | .overrun => none

/-- An overflow cluster without used slots is unlinked and freed on the way. -/
def deleteList (fid : UInt32) : List FilterCluster → Option (Bool × List FilterCluster)
  | [] => some (false, [])
  | mc :: rest =>
    match deleteIn fid mc with
    | none => none
    | some (true, _, mc') => some (true, mc' :: rest)
    | some (false, s, mc') =>
      (deleteList fid rest).map fun r => (r.1, if s then mc' :: r.2 else r.2)

/-- The return code is `0` when the first component is set and `-1` otherwise. -/
def alFilterDelete (c : AlFilterChain) (fid : UInt32) : Option (Bool × AlFilterChain) :=
  match deleteIn fid c.inl with
  | none => none
  | some (true, _, inl) => some (true, { c with nums := c.nums - 1, inl })
  | some (false, _, inl) =>
    (deleteList fid c.list).map fun r =>
      (r.1, { nums := if r.1 then c.nums - 1 else c.nums, inl, list := r.2 })

/-- The free slot of an overflow cluster is looked for below its counter. -/
def freeBelow (mc : FilterCluster) : Option ℕ :=
  (mc.m.take mc.cnt.toNat).findIdx? fun m => !m.isUsed

def addList (conf : FilterConf) : List FilterCluster → Option (List FilterCluster)
  | [] => none
  | mc :: rest =>
    match freeBelow mc with
    | some i => some (mc.put i (fun _ => alSetFilter conf) :: rest)
    | none => (addList conf rest).map (mc :: ·)

/-- `load` is the return code of `al_group_load`, `fresh` what `al_malloc` returns. A new
overflow cluster is not counted in `nums`. -/
def alFilterAdd (c : AlFilterChain) (conf : FilterConf) (load : Int)
    (fresh : Option FilterCluster) : Int × AlFilterChain :=
  if load ≠ 0 then (load, c)
  else
    match c.inl.firstFree AlFilter.isUsed with
    | some i =>
      (0, { c with nums := c.nums + 1, inl := c.inl.put i fun _ => alSetFilter conf })
    | none =>
      match addList conf c.list with
      | some list => (0, { c with nums := c.nums + 1, list })
      | none =>
        match fresh with
        | none => (-1, c)
        | some mem =>
          let mc := (initFc mem).modify 0 fun _ => alSetFilter conf
          (0, { c with list := { mc with cnt := 1 } :: c.list })

def AlFilterChain.filters (c : AlFilterChain) : List AlFilter :=
  (c.inl.m ++ c.list.flatMap Cluster.m).filter AlFilter.isUsed

/-- An overflow cluster is made for one filter and never gets a second one. -/
structure Single (mc : FilterCluster) : Prop where
  exact : mc.Exact AlFilter.isUsed
  rest : ∀ m ∈ mc.m.drop 1, m.isUsed = false

structure AlFilterChain.Sound (c : AlFilterChain) : Prop where
  exact : c.inl.Exact AlFilter.isUsed
  single : ∀ mc ∈ c.list, Single mc
  nums : c.nums ≤ c.inl.cnt

section Lookup
variable {port : UInt16} {proto : UInt8}

theorem lookupClusters_eq {l : List FilterCluster} (h : ∀ mc ∈ l, mc.Exact AlFilter.isUsed) :
    lookupClusters port proto l =
      some (((l.flatMap Cluster.m).filter AlFilter.isUsed).find? (AlFilter.matches port proto)) := by
  induction l with
  | nil => rfl
  | cons mc l ih =>
    rw [List.forall_mem_cons] at h
    rw [List.flatMap_cons, List.filter_append, List.find?_append, lookupClusters]
    cases hf : (mc.m.filter AlFilter.isUsed).find? (AlFilter.matches port proto) with
    | none => simp only [h.1.seek_miss id hf, ih h.2, Option.none_or]
    | some m =>
      obtain ⟨_, _, _, -, -, -, -, hs⟩ := h.1.seek_hit id hf
      simp only [hs, Option.some_or]

theorem AlFilterChain.Sound.lookup {c : AlFilterChain} (h : c.Sound) :
    alFilterLookup c port proto = some (c.filters.find? (AlFilter.matches port proto)) :=
  lookupClusters_eq (List.forall_mem_cons.mpr ⟨h.exact, fun mc hmc => (h.single mc hmc).exact⟩)

end Lookup

section Delete
variable {fid : UInt32} {mc : FilterCluster}

theorem deleteIn_miss (h : mc.Exact AlFilter.isUsed)
    (hf : (mc.m.filter AlFilter.isUsed).find? (fun m => m.fid == fid) = none) :
    deleteIn fid mc = some (false, mc.m.any AlFilter.isUsed, mc) := by
  rw [deleteIn, h.seek_miss release hf]

theorem deleteIn_hit (h : mc.Exact AlFilter.isUsed) {m : AlFilter}
    (hf : (mc.m.filter AlFilter.isUsed).find? (fun m => m.fid == fid) = some m) :
    ∃ mc', deleteIn fid mc = some (true, true, mc') ∧ mc'.Exact AlFilter.isUsed ∧
      mc'.cnt = mc.cnt - 1 ∧ 0 < mc.cnt ∧
      mc'.m.filter AlFilter.isUsed =
        (mc.m.filter AlFilter.isUsed).eraseP (fun m => m.fid == fid) ∧
      ((∀ m ∈ mc.m.drop 1, m.isUsed = false) → ∀ m ∈ mc'.m.drop 1, m.isUsed = false) := by
  obtain ⟨pre, post, size, hsplit, hu, hhit, hpre, hs⟩ := h.seek_hit release hf
  have hcount : mc.m.countP AlFilter.isUsed =
      (pre ++ release m :: post).countP AlFilter.isUsed + 1 := by
    rw [hsplit]
    simp [hu, release]
    omega
  have hpos : 0 < mc.cnt := by
    have : 0 < mc.cnt.toNat := by
      unfold Cluster.Exact at h
      omega
    exact UInt16.lt_iff_toNat_lt.mpr this
  refine ⟨⟨mc.cnt - 1, pre ++ release m :: post, size⟩, by rw [deleteIn, hs], ?_, rfl, hpos,
    ?_, ?_⟩
  · unfold Cluster.Exact at h ⊢
    have := mc.cnt.toNat_lt
    rw [UInt16.toNat_sub, UInt16.toNat_one]
    simp only at hcount ⊢
    omega
  · rw [hsplit, List.filter_append, List.filter_append, List.filter_cons_of_neg (by simp [release]),
      List.filter_cons_of_pos hu, List.eraseP_append_right,
      List.eraseP_cons_of_pos (p := fun m : AlFilter => m.fid == fid) hhit]
    intro b hb
    obtain ⟨hb, hu'⟩ := List.mem_filter.mp hb
    simpa using hpre b hb hu'
  · intro hrest b hb
    cases pre with
    | nil =>
      rw [hsplit] at hrest
      exact hrest b hb
    | cons a pre =>
      rw [hsplit] at hrest
      exact absurd (hrest m (by simp)) (by simp [hu])

theorem eraseP_append_of_none {p : AlFilter → Bool} {l l' : List AlFilter}
    (h : l.find? p = none) : (l ++ l').eraseP p = l ++ l'.eraseP p :=
  List.eraseP_append_right _ (by simpa using h)

theorem eraseP_append_of_some {p : AlFilter → Bool} {l : List AlFilter} {m : AlFilter}
    (h : l.find? p = some m) (l' : List AlFilter) : (l ++ l').eraseP p = l.eraseP p ++ l' :=
  List.eraseP_append_left (List.find?_some h) _ (List.mem_of_find?_eq_some h)

theorem deleteList_spec (fid : UInt32) {l : List FilterCluster} (h : ∀ mc ∈ l, Single mc) :
    ∃ l', deleteList fid l = some ((((l.flatMap Cluster.m).filter AlFilter.isUsed).find?
        fun m => m.fid == fid).isSome, l') ∧ (∀ mc ∈ l', Single mc) ∧
      (l'.flatMap Cluster.m).filter AlFilter.isUsed =
        ((l.flatMap Cluster.m).filter AlFilter.isUsed).eraseP fun m => m.fid == fid := by
  induction l with
  | nil => exact ⟨[], rfl, by simp, rfl⟩
  | cons mc l ih =>
    rw [List.forall_mem_cons] at h
    simp only [List.flatMap_cons, List.filter_append, List.find?_append, deleteList]
    cases hf : (mc.m.filter AlFilter.isUsed).find? fun m => m.fid == fid with
    | none =>
      obtain ⟨l', hdel, hsingle, hfilters⟩ := ih h.2
      rw [deleteIn_miss h.1.exact hf, eraseP_append_of_none hf]
      simp only [hdel, Option.map_some, Option.none_or]
      cases hany : mc.m.any AlFilter.isUsed with
      | true =>
        refine ⟨_, rfl, List.forall_mem_cons.mpr ⟨h.1, hsingle⟩, ?_⟩
        simp [hfilters]
      | false =>
        have hnone : mc.m.filter AlFilter.isUsed = [] := by
          simpa [List.any_eq_false] using hany
        exact ⟨_, rfl, hsingle, by simp [hfilters, hnone]⟩
    | some m =>
      obtain ⟨mc', hdel, hexact, -, -, hfilters, hrest⟩ := deleteIn_hit h.1.exact hf
      rw [hdel, eraseP_append_of_some hf]
      refine ⟨mc' :: l, rfl, List.forall_mem_cons.mpr ⟨⟨hexact, hrest h.1.rest⟩, h.2⟩, ?_⟩
      rw [List.flatMap_cons, List.filter_append, hfilters]

theorem AlFilterChain.Sound.delete {c : AlFilterChain} (h : c.Sound) (hnums : 0 < c.nums)
    (fid : UInt32) :
    ∃ c', alFilterDelete c fid = some ((c.filters.find? fun m => m.fid == fid).isSome, c') ∧
      c'.Sound ∧ c'.filters = c.filters.eraseP (fun m => m.fid == fid) ∧
      c'.nums = if (c.filters.find? fun m => m.fid == fid).isSome then c.nums - 1 else c.nums := by
  have hle := UInt16.le_iff_toNat_le.mp h.nums
  have hpos := UInt16.lt_iff_toNat_lt.mp hnums
  have hsub : (c.nums - 1).toNat = c.nums.toNat - 1 :=
    UInt16.toNat_sub_of_le _ _ (UInt16.le_iff_toNat_le.mpr hpos)
  simp only [AlFilterChain.filters, List.filter_append, List.find?_append, alFilterDelete]
  cases hf : (c.inl.m.filter AlFilter.isUsed).find? fun m => m.fid == fid with
  | none =>
    obtain ⟨l', hdel, hsingle, hfilters⟩ := deleteList_spec fid h.single
    rw [deleteIn_miss h.exact hf, eraseP_append_of_none hf]
    simp only [hdel, Option.map_some, Option.none_or]
    refine ⟨_, rfl, ⟨h.exact, hsingle, ?_⟩, by rw [hfilters], rfl⟩
    rw [UInt16.le_iff_toNat_le]
    split <;> simp only [hsub] <;> omega
  | some m =>
    obtain ⟨inl, hdel, hexact, hcnt, hcpos, hfilters, -⟩ := deleteIn_hit h.exact hf
    have hcsub : (c.inl.cnt - 1).toNat = c.inl.cnt.toNat - 1 :=
      UInt16.toNat_sub_of_le _ _ (UInt16.le_iff_toNat_le.mpr (UInt16.lt_iff_toNat_lt.mp hcpos))
    rw [hdel, eraseP_append_of_some hf]
    refine ⟨_, rfl, ⟨hexact, h.single, ?_⟩, by rw [hfilters], rfl⟩
    rw [UInt16.le_iff_toNat_le, hcnt, hsub, hcsub]
    omega

end Delete

section Add
variable {conf : FilterConf}

@[simp] theorem alSetFilter_isUsed (conf : FilterConf) : (alSetFilter conf).isUsed = true := rfl

theorem Single.freeBelow {mc : FilterCluster} (h : Single mc) : freeBelow mc = none := by
  have hcnt := h.exact
  have hrest := h.rest
  unfold Cluster.Exact at hcnt
  rw [Filter.freeBelow]
  cases hm : mc.m with
  | nil => simp
  | cons a rest =>
    rw [hm, List.drop_one, List.tail_cons] at hrest
    have hzero : rest.countP AlFilter.isUsed = 0 := by
      simpa [List.countP_eq_zero] using hrest
    rw [hcnt, hm, List.countP_cons, hzero]
    cases ha : a.isUsed with
    | false => rfl
    | true => simp [ha]

theorem Single.cnt_le_one {mc : FilterCluster} (h : Single mc) : mc.cnt.toNat ≤ 1 := by
  have hrest : (mc.m.drop 1).countP AlFilter.isUsed = 0 := by
    rw [List.countP_eq_zero]
    intro m hm
    rw [h.rest m hm]
    exact Bool.false_ne_true
  rw [h.exact, ← List.take_append_drop 1 mc.m, List.countP_append, hrest]
  exact Nat.le_trans List.countP_le_length (List.length_take_le 1 mc.m)

theorem addList_eq_none {l : List FilterCluster} (h : ∀ mc ∈ l, Single mc) :
    addList conf l = none := by
  induction l with
  | nil => rfl
  | cons mc l ih =>
    rw [List.forall_mem_cons] at h
    rw [addList, h.1.freeBelow, ih h.2]
    rfl

theorem single_new (conf : FilterConf) (mem : FilterCluster) :
    let mc : FilterCluster :=
      { (initFc mem).modify 0 (fun _ => alSetFilter conf) with cnt := 1 }
    Single mc ∧ mc.m.filter AlFilter.isUsed = [alSetFilter conf] := by
  obtain ⟨cnt, m, size⟩ := mem
  cases m with
  | nil => cases size
  | cons a m =>
    have hnone : ∀ b ∈ m.map fun m => { m with isUsed := false }, AlFilter.isUsed b = false := by
      simp
    refine ⟨⟨?_, fun b hb => hnone b hb⟩, ?_⟩
    · simp [Cluster.Exact, initFc, Cluster.modify, List.countP_cons, List.countP_eq_zero]
    · have htail := List.filter_eq_nil_iff.mpr fun b hb => Bool.eq_false_iff.mp (hnone b hb)
      simp only [initFc, Cluster.modify, List.map_cons, List.modify_zero_cons]
      rw [List.filter_cons_of_pos (alSetFilter_isUsed conf), htail]

theorem AlFilterChain.Sound.add {c : AlFilterChain} (h : c.Sound) (conf : FilterConf)
    (mem : FilterCluster) :
    ∃ c', alFilterAdd c conf 0 (some mem) = (0, c') ∧ c'.Sound ∧
      c'.filters.Perm (alSetFilter conf :: c.filters) ∧
      (0 < c.nums ∨ (c.inl.firstFree AlFilter.isUsed).isSome → 0 < c'.nums) := by
  simp only [alFilterAdd, ne_eq, not_true_eq_false, if_false, addList_eq_none h.single]
  cases hfree : c.inl.firstFree AlFilter.isUsed with
  | some i =>
    obtain ⟨-, -, hperm⟩ :=
      Cluster.filter_modify_free (f := fun _ => alSetFilter conf) (fun _ => rfl) hfree
    have hexact := h.exact.put (f := fun _ => alSetFilter conf) (fun _ => rfl) (by decide) hfree
    have hcnt : (c.inl.cnt + 1).toNat ≤ filterClusterSize := by
      have hle := (c.inl.put i fun _ => alSetFilter conf).m.countP_le_length (p := AlFilter.isUsed)
      rwa [← hexact, Cluster.size] at hle
    have hnums := UInt16.le_iff_toNat_le.mp h.nums
    have hbound : c.inl.cnt.toNat ≤ filterClusterSize := by
      have hle := c.inl.m.countP_le_length (p := AlFilter.isUsed)
      rwa [← h.exact, Cluster.size] at hle
    have hnext {a : UInt16} (ha : a.toNat ≤ filterClusterSize) : (a + 1).toNat = a.toNat + 1 := by
      rw [UInt16.toNat_add, UInt16.toNat_one]
      unfold filterClusterSize at ha
      omega
    refine ⟨_, rfl, ⟨hexact, h.single, ?_⟩, ?_, fun _ => ?_⟩
    · rw [UInt16.le_iff_toNat_le]
      change (c.nums + 1).toNat ≤ (c.inl.cnt + 1).toNat
      rw [hnext hbound, hnext (by omega)]
      omega
    · simp only [AlFilterChain.filters, List.filter_append, ← List.cons_append]
      exact hperm.append_right _
    · rw [UInt16.lt_iff_toNat_lt]
      change 0 < (c.nums + 1).toNat
      rw [hnext (by omega)]
      omega
  | none =>
    obtain ⟨hsingle, hfilters⟩ := single_new conf mem
    refine ⟨_, rfl, ⟨h.exact, List.forall_mem_cons.mpr ⟨hsingle, h.single⟩, h.nums⟩, ?_,
      fun hpos => by simpa using hpos⟩
    simp only [AlFilterChain.filters, List.flatMap_cons, List.filter_append, hfilters]
    exact List.perm_middle

def takes (c : AlFilterChain) (fresh : Option FilterCluster) : Bool :=
  (c.inl.firstFree AlFilter.isUsed).isSome || fresh.isSome

theorem AlFilterChain.Sound.add_spec {c : AlFilterChain} (h : c.Sound) (conf : FilterConf) (load : Int)
    (fresh : Option FilterCluster) :
    if load = 0 ∧ takes c fresh = true then
      ∃ c', alFilterAdd c conf load fresh = (0, c') ∧ c'.Sound ∧
        c'.filters.Perm (alSetFilter conf :: c.filters) ∧
        (0 < c.nums ∨ (c.inl.firstFree AlFilter.isUsed).isSome → 0 < c'.nums)
    else ∃ rc, rc ≠ 0 ∧ alFilterAdd c conf load fresh = (rc, c) := by
  by_cases hload : load = 0
  · subst hload
    cases hfree : c.inl.firstFree AlFilter.isUsed with
    | some i =>
      -- With a free inline slot the memory is not looked at.
      have hsame : alFilterAdd c conf 0 fresh =
          alFilterAdd c conf 0 (some ⟨0, List.replicate filterClusterSize (alSetFilter conf), rfl⟩) := by
        simp only [alFilterAdd, hfree]
      rw [if_pos ⟨rfl, by simp [takes, hfree]⟩, hsame, ← hfree]
      exact h.add conf _
    | none =>
      cases fresh with
      | some mem =>
        rw [if_pos ⟨rfl, by simp [takes]⟩, ← hfree]
        exact h.add conf mem
      | none =>
        rw [if_neg (by simp [takes, hfree])]
        refine ⟨-1, by decide, ?_⟩
        simp only [alFilterAdd, hfree, addList_eq_none h.single, ne_eq, not_true_eq_false, if_false]
  · rw [if_neg fun hand => hload hand.1]
    exact ⟨load, hload, by simp only [alFilterAdd, ne_eq, hload, not_false_eq_true, if_true]⟩

theorem initFc_unused (mem : FilterCluster) : ∀ m ∈ (initFc mem).m, m.isUsed = false := by
  simp [initFc]

theorem newChain_sound (mem : FilterCluster) : (newChain mem).Sound := by
  refine ⟨?_, by simp [newChain], UInt16.le_refl _⟩
  have hnone : (initFc mem).m.countP AlFilter.isUsed = 0 := by
    simpa [List.countP_eq_zero] using initFc_unused mem
  exact hnone.symm

@[simp] theorem newChain_filters (mem : FilterCluster) : (newChain mem).filters = [] := by
  simpa [AlFilterChain.filters, newChain, List.filter_eq_nil_iff] using initFc_unused mem

theorem newChain_firstFree (mem : FilterCluster) :
    ((newChain mem).inl.firstFree AlFilter.isUsed).isSome := by
  have hnone := initFc_unused mem
  have hsize := (initFc mem).size
  rw [newChain, Cluster.firstFree]
  cases hm : (initFc mem).m with
  | nil =>
    rw [hm] at hsize
    cases hsize
  | cons a m =>
    rw [hm, List.forall_mem_cons] at hnone
    simp [List.findIdx?_cons, hnone.1]

end Add

end Aware.Filter
