import Aware.Rest.Copies
import Aware.Rest.Groups

/-!
# What the calls do to the tables

When a call of a handler succeeds, and what the tables hold after it, for tables as their own
functions leave them.
-/
namespace Aware.Rest
open Aware.Member Aware.Radix
open Aware.Service (netOrder)

theorem forall_returned {T : Type} {rc : Int} {t : T} {P : Int → T → Prop} :
    (∀ rc' t', some (rc, t) = some (rc', t') → P rc' t') ↔ P rc t := by
  refine ⟨fun h => h rc t rfl, fun h rc' t' heq => ?_⟩
  cases heq
  exact h

section Filters
variable {inet : Inet} {e : Supply} {db : List Row} {t t' : Tables} {f : ApiFilter}
  {s s' : Filter.Filters} {r : Filter.Request}

structure Loads (inet : Inet) (e : Supply) (db : List Row) (t : Tables) (r : Filter.Request) :
    Prop where
  accepts : Filter.Accepts t.filters r
  memory : Filter.alFilterSame t.filters r = none → e.calloc = true ∧ e.filterNode.isSome = true
  group : GroupLoads inet e db t.groups r.conf.id r.conf.gid

/-- There is a slot for the filter, and its chain can be reached; or another one has its id. -/
structure Enters (e : Supply) (s : Filter.Filters) (r : Filter.Request) : Prop where
  supplied : Filter.Supplied s r ⟨0, e.calloc, e.filterNode, e.filterFresh⟩
  reached : Filter.Linked s r ∨ s.HasFilter r.conf.id

structure FilterInserts (inet : Inet) (e : Supply) (db : List Row) (t : Tables) (undone : Prop)
    (r : Filter.Request) : Prop where
  loaded : Loads inet e db t r → (loadedMembers inet e db r.conf.gid).2 = false → Enters e t.filters r
  refused : ¬ Loads inet e db t r →
    (∀ i ∈ Filter.alFilterSame t.filters r, (t.filters.chains i).isSome = true) → undone

theorem reachesLoad_iff (h : s.Kept) : reachesLoad e s r = true ↔ Filter.Accepts s r ∧
    (Filter.alFilterSame s r = none → e.calloc = true ∧ e.filterNode.isSome = true) := by
  have hzero := h.radixInsert_eq_zero r e.calloc
  rw [reachesLoad, Filter.Accepts, Filter.alFilterSame_eq]
  cases (rnMatch r.addr (s.tree r.family)).filter fun l => l.len == r.mask.len with
  | some l => simp
  | none =>
    simp only [Option.map_none, Bool.and_eq_true, bne_iff_ne, ne_eq, hzero, forall_const]
    tauto

theorem alFilterInsert_eq_none_iff (s : Filter.Filters) (r : Filter.Request) (env : Filter.Env) :
    Filter.alFilterInsert s r env = none ↔
      ¬ ∀ i ∈ Filter.alFilterSame s r, (s.chains i).isSome = true := by
  rw [Filter.alFilterInsert]
  cases Filter.alFilterSame s r with
  | some i => cases hc : s.chains i <;> simp [hc]
  | none =>
    refine iff_of_false ?_ (by simp)
    dsimp only
    split_ifs
    · simp
    · split
      · simp
      · split_ifs <;> simp

theorem view_insert_refused (h : t.filters.Kept) {env : Filter.Env} {rc : Int}
    (hs : Filter.alFilterInsert t.filters r env = some (rc, s')) (hrc : rc ≠ 0) :
    ({ t with filters := s' } : Tables).view = t.view := by
  have hheld : s'.held = t.filters.held :=
    funext fun f => funext fun k => funext fun n => h.insert_refused hs hrc f k n
  simp only [Tables.view, hheld]

theorem filterInsert_unloaded (h : t.filters.Kept) (hr : f.request = some r)
    (hno : ¬ Loads inet e db t r) {rc : Int} (hs : filterInsert inet e db t f = some (rc, t')) :
    rc ≠ 0 ∧ t'.view = t.view := by
  have hconf := ApiFilter.request_conf hr
  rw [filterInsert, hr, Option.bind_some] at hs
  by_cases hreach : reachesLoad e t.filters r = true
  · rw [if_pos hreach] at hs
    obtain ⟨haccepts, hmemory⟩ := (reachesLoad_iff h).mp hreach
    have hgroup : ¬ GroupLoads inet e db t.groups f.id f.gid := by
      intro hgroup
      exact hno ⟨haccepts, hmemory, by rw [hconf]; exact hgroup⟩
    rw [alGroupLoad_refused hgroup, Option.bind_some] at hs
    obtain ⟨⟨rc', s'⟩, hins, heq⟩ := Option.map_eq_some_iff.mp hs
    cases heq
    have hrc := (Filter.insert_unloaded (Int.negSucc_ne_zero 0) hins).1
    exact ⟨hrc, view_insert_refused h hins hrc⟩
  · rw [if_neg hreach] at hs
    obtain ⟨⟨rc', s'⟩, hins, heq⟩ := Option.map_eq_some_iff.mp hs
    cases heq
    have hrc := (insert_short (Bool.eq_false_iff.mpr hreach) rfl rfl hins).1
    exact ⟨hrc, view_insert_refused h hins hrc⟩

theorem filterInsert_eq_none_iff (h : t.filters.Kept) (hr : f.request = some r)
    (hno : ¬ Loads inet e db t r) : filterInsert inet e db t f = none ↔
      ¬ ∀ i ∈ Filter.alFilterSame t.filters r, (t.filters.chains i).isSome = true := by
  have hconf := ApiFilter.request_conf hr
  rw [filterInsert, hr, Option.bind_some]
  by_cases hreach : reachesLoad e t.filters r = true
  · obtain ⟨haccepts, hmemory⟩ := (reachesLoad_iff h).mp hreach
    have hgroup : ¬ GroupLoads inet e db t.groups f.id f.gid := by
      intro hgroup
      exact hno ⟨haccepts, hmemory, by rw [hconf]; exact hgroup⟩
    rw [if_pos hreach, alGroupLoad_refused hgroup, Option.bind_some, Option.map_eq_none_iff]
    exact alFilterInsert_eq_none_iff _ _ _
  · rw [if_neg hreach, Option.map_eq_none_iff]
    exact alFilterInsert_eq_none_iff _ _ _

theorem filterInsert_loaded (hr : f.request = some r) (hk : t.filters.Kept)
    (hloads : Loads inet e db t r) :
    ∃ n, filterInsert inet e db t f = if (loadedMembers inet e db r.conf.gid).2 then none else
      (Filter.alFilterInsert t.filters r ⟨0, e.calloc, e.filterNode, e.filterFresh⟩).map
        fun (rc, filters) => (rc, { t with
          filters, groups := t.groups.set (alMakeKey r.conf.id r.conf.gid) (some n) }) := by
  obtain ⟨n, hload⟩ := hloads.group.alGroupLoad
  have hconf := ApiFilter.request_conf hr
  rw [hconf] at hload ⊢
  refine ⟨n, ?_⟩
  rw [filterInsert, hr, Option.bind_some,
    if_pos ((reachesLoad_iff hk).mpr ⟨hloads.accepts, hloads.memory⟩)]
  change (alGroupLoad inet e db t.groups f.conf.id f.conf.gid).bind _ = _
  rw [hload]
  split <;> rfl

theorem Loads.chained (h : Loads inet e db t r) :
    ∀ i ∈ Filter.alFilterSame t.filters r, (t.filters.chains i).isSome = true := by
  intro i hi
  have haccepts := h.accepts
  rw [Filter.alFilterSame_eq] at hi
  obtain ⟨l, hl, rfl⟩ := Option.map_eq_some_iff.mp hi
  rwa [Filter.Accepts, hl] at haccepts

theorem Loads.atomic_iff (h : Loads inet e db t r) (hk : t.filters.Kept) {n : AlMemberNode} {rc : Int}
    (hs : Filter.alFilterInsert t.filters r ⟨0, e.calloc, e.filterNode, e.filterFresh⟩ = some (rc, s'))
    (ht' : t' = { t with
      filters := s', groups := t.groups.set (alMakeKey r.conf.id r.conf.gid) (some n) })
    {undone : Prop} :
    (if rc = 0 then t'.view.hasFilter r.conf.id else t'.view = t.view ∧ undone) ↔
      Enters e t.filters r := by
  have hsucceeds := hk.succeeds_iff r ⟨0, e.calloc, e.filterNode, e.filterFresh⟩
  subst ht'
  split
  · next hrc =>
      subst hrc
      have hsupplied := (hsucceeds.mp ⟨s', hs⟩).2
      exact (hk.hasFilter_insert_iff hs).trans ⟨fun h => ⟨hsupplied, h⟩, Enters.reached⟩
  · next hrc =>
      refine iff_of_false (fun hsame => ?_) fun henters => ?_
      · -- the copy of the group was not there before
        have hgroups := congrFun (congrArg View.groups hsame.1) (alMakeKey r.conf.id r.conf.gid)
        rw [view_groups, view_groups, h.group.absent] at hgroups
        dsimp only at hgroups
        rw [Groups.set_self] at hgroups
        cases hgroups
      · obtain ⟨s'', hok⟩ := hsucceeds.mpr ⟨h.accepts, henters.supplied⟩
        cases hs.symm.trans hok
        exact hrc rfl

theorem filterInsert_atomic_iff (hk : t.filters.Kept) (f : ApiFilter) {undone : Prop} :
    (∀ rc t', filterInsert inet e db t f = some (rc, t') →
      if rc = 0 then t'.view.hasFilter f.id else t'.view = t.view ∧ undone) ↔
      ∀ r ∈ f.request, FilterInserts inet e db t undone r := by
  cases hr : f.request with
  | none => simp [filterInsert, hr]
  | some r =>
    have hid : r.conf.id = f.id := congrArg Filter.FilterConf.id (ApiFilter.request_conf hr)
    simp only [Option.mem_def, Option.some.injEq, forall_eq', ← hid]
    by_cases hloads : Loads inet e db t r
    · obtain ⟨n, hins⟩ := filterInsert_loaded hr hk hloads
      rw [hins]
      cases hbad : (loadedMembers inet e db r.conf.gid).2 with
      | true =>
        refine iff_of_true (by simp) ⟨fun _ hgood => ?_, fun hno => absurd hloads hno⟩
        rw [hbad] at hgood
        cases hgood
      | false =>
        have hiff : FilterInserts inet e db t undone r ↔ Enters e t.filters r :=
          ⟨fun h => h.loaded hloads hbad, fun h => ⟨fun _ _ => h, fun hno => absurd hloads hno⟩⟩
        obtain ⟨⟨rc, s'⟩, hs⟩ := Option.ne_none_iff_exists'.mp fun hnone =>
          (alFilterInsert_eq_none_iff t.filters r
            ⟨0, e.calloc, e.filterNode, e.filterFresh⟩).mp hnone hloads.chained
        rw [hiff, ← hloads.atomic_iff hk hs rfl, if_neg Bool.false_ne_true, hs]
        exact forall_returned
    · have hnone := filterInsert_eq_none_iff hk hr hloads
      constructor
      · intro h
        refine ⟨fun hl => absurd hl hloads, fun _ hchains => ?_⟩
        obtain ⟨⟨rc, t'⟩, hs⟩ := Option.ne_none_iff_exists'.mp fun hn => hnone.mp hn hchains
        have hatomic := h rc t' hs
        rw [if_neg (filterInsert_unloaded hk hr hloads hs).1] at hatomic
        exact hatomic.2
      · intro h rc t' hs
        obtain ⟨hrc, hview⟩ := filterInsert_unloaded hk hr hloads hs
        rw [if_neg hrc]
        refine ⟨hview, h.refused hloads ?_⟩
        by_contra hchains
        rw [hnone.mpr hchains] at hs
        cases hs

/-- The deletion takes the filter out, and no other with its id is left. -/
structure Clears (s : Filter.Filters) (r : Filter.Request) (c : Filter.AlFilterChain) : Prop where
  removable : c.nums = 1 → (s.tree r.family).Removable r.addr r.mask.len
  once : c.nums ≠ 1 → c.filters.countP (fun m => m.fid == r.conf.id) ≤ 1
  alone : ∀ f k n, (s.tree f).entry k n ≠ some (Filter.alFilterRadixLookup s r) →
    ∀ m ∈ s.held f k n, m.fid ≠ r.conf.id

structure FilterDeletes (s : Filter.Filters) (kept : Prop) (r : Filter.Request) : Prop where
  found : s.Finds r → ∀ c ∈ s.chains (Filter.alFilterRadixLookup s r), Clears s r c
  missed : ¬ s.Finds r → kept

theorem not_mem_eraseP_iff {l : List Filter.AlFilter} {fid : UInt32} :
    (∀ m ∈ l.eraseP fun m => m.fid == fid, m.fid ≠ fid) ↔ l.countP (fun m => m.fid == fid) ≤ 1 := by
  have hzero : (∀ m ∈ l.eraseP fun m => m.fid == fid, m.fid ≠ fid) ↔
      (l.eraseP fun m => m.fid == fid).countP (fun m => m.fid == fid) = 0 := by
    simp [List.countP_eq_zero]
  rw [hzero, Keyed.countP_eraseP]
  omega

theorem exists_entry_of_finds (hk : s.Kept) (h : s.Finds r) :
    ∃ k n, (s.tree r.family).entry k n = some (Filter.alFilterRadixLookup s r) := by
  obtain ⟨m, hm, -⟩ := h
  rw [Filter.alFilterRadixLookup] at hm ⊢
  cases hl : rnLookup r.addr r.mask.len (s.tree r.family) with
  | none =>
    rw [hl] at hm
    simp [Filter.Filters.filtersAt, hk.zero] at hm
  | some l =>
    obtain ⟨k, hentry⟩ := (hk.trees r.family).entry_of_rnLookup hl
    exact ⟨k, _, hentry⟩

theorem exists_chain_of_finds (h : s.Finds r) :
    ∃ c, s.chains (Filter.alFilterRadixLookup s r) = some c := by
  obtain ⟨m, hm, -⟩ := h
  rw [Filter.Filters.filtersAt] at hm
  cases hc : s.chains (Filter.alFilterRadixLookup s r) with
  | none => simp [hc] at hm
  | some c => exact ⟨c, rfl⟩

theorem not_hasFilter_iff (hk : s.Kept) (hfinds : s.Finds r) {c : Filter.AlFilterChain}
    (hheld : ∀ f k n, s'.held f k n =
      if (s.tree f).entry k n = some (Filter.alFilterRadixLookup s r) then
        if c.nums = 1 then [] else c.filters.eraseP fun m => m.fid == r.conf.id
      else s.held f k n) :
    ¬ s'.HasFilter r.conf.id ↔
      (c.nums ≠ 1 → c.filters.countP (fun m => m.fid == r.conf.id) ≤ 1) ∧
        ∀ f k n, (s.tree f).entry k n ≠ some (Filter.alFilterRadixLookup s r) →
          ∀ m ∈ s.held f k n, m.fid ≠ r.conf.id := by
  simp only [Filter.Filters.HasFilter, hheld, not_exists, not_and]
  constructor
  · intro h
    refine ⟨fun hne => ?_, fun f k n hother m hm => ?_⟩
    · obtain ⟨k, n, hentry⟩ := exists_entry_of_finds hk hfinds
      have hnone := h r.family k n
      rw [if_pos hentry, if_neg hne] at hnone
      exact not_mem_eraseP_iff.mp hnone
    · have hnone := h f k n
      rw [if_neg hother] at hnone
      exact hnone m hm
  · rintro ⟨honce, halone⟩ f k n
    split
    · split
      · simp
      · next hne => exact not_mem_eraseP_iff.mpr (honce hne)
    · next hother => exact halone f k n hother

theorem filterDel_atomic_iff (hk : t.filters.Kept) (f : ApiFilter) {kept : Prop} :
    (∀ rc t', filterDel t f = some (rc, t') →
      if rc = 0 then ¬ t'.view.hasFilter f.id else t'.view = t.view ∧ kept) ↔
      ∀ r ∈ f.request, FilterDeletes t.filters kept r := by
  cases hr : f.request with
  | none => simp [filterDel, hr]
  | some r =>
    have hid : r.conf.id = f.id := congrArg Filter.FilterConf.id (ApiFilter.request_conf hr)
    simp only [Option.mem_def, Option.some.injEq, forall_eq', ← hid]
    rw [filterDel, hr, Option.bind_some]
    by_cases hfinds : t.filters.Finds r
    · obtain ⟨c, hc⟩ := exists_chain_of_finds hfinds
      obtain ⟨rc, s', hdel, hrc, hheld⟩ := hk.del_hit hc hfinds
      have hiff : FilterDeletes t.filters kept r ↔ Clears t.filters r c :=
        ⟨fun h => h.found hfinds c hc,
          fun h => ⟨fun _ c' hc' => Option.some.inj (hc.symm.trans hc') ▸ h,
            fun hno => absurd hfinds hno⟩⟩
      rw [hdel, hiff]
      refine forall_returned.trans ?_
      have hleft := not_hasFilter_iff hk hfinds hheld
      split
      · next hzero =>
          refine hleft.trans ⟨fun ⟨honce, halone⟩ => ⟨hrc.mp hzero, honce, halone⟩, fun h => ?_⟩
          exact ⟨h.once, h.alone⟩
      · next hne =>
          refine iff_of_false (fun hsame => ?_) fun h => hne (hrc.mpr h.removable)
          -- the chain is gone, although the tree has kept its entry
          have hlast : c.nums = 1 := by
            by_contra hnums
            exact hne (hrc.mpr fun h => absurd h hnums)
          obtain ⟨k, n, hentry⟩ := exists_entry_of_finds hk hfinds
          obtain ⟨m, hm, -⟩ := hfinds
          have hview : s'.held r.family k n = t.filters.held r.family k n :=
            congrFun (congrFun (congrFun (congrArg View.filters hsame.1) r.family) k) n
          rw [hheld, if_pos hentry, if_pos hlast, Filter.Filters.held, hentry, Option.map_some,
            Option.getD_some] at hview
          rw [← hview] at hm
          cases hm
    · obtain ⟨s', hdel, htree, hat⟩ := hk.del_miss hfinds
      have hiff : FilterDeletes t.filters kept r ↔ kept :=
        ⟨fun h => h.missed hfinds, fun h => ⟨fun hf => absurd hf hfinds, fun _ => h⟩⟩
      rw [hdel, hiff]
      refine forall_returned.trans ?_
      rw [if_neg (by decide)]
      refine and_iff_right ?_
      have hheld : s'.held = t.filters.held := by
        funext f k n
        rw [Filter.Filters.held, Filter.Filters.held, htree, hat]
      simp only [Tables.view, hheld]

end Filters

section Routes
variable {e : Supply} {t t' : Tables} {live : Router.Live} {key : RouteKey} {m : Mask key.family.width}
  {rc : Int}

theorem view_routes (h : Router.Tracks t.routes live) (f : Family) (k : Router.Table)
    (a : BitVec f.width) (n : ℕ) : t.view.routes f k a n = live f k a n :=
  (h f k).entry a n

theorem hasRoute_iff (h : Router.Tracks t.routes live) (hm : maskOf (netOrder key.mask) = some m) :
    t.view.hasRoute key ↔ live key.family (Router.alRouter key.rtype)
      (netOrder key.subnet &&& m.bits) m.len ≠ none := by
  simp only [View.hasRoute, hm, Option.mem_def, Option.some.injEq, exists_eq_left', view_routes h,
    Option.isSome_iff_ne_none]

def RouteInserts (e : Supply) (t : Tables) (undone : Prop) (key : RouteKey) (oif : UInt32) : Prop :=
  match e.ports oif with
  | none => t.view.hasRoute key
  | some _ => e.calloc = true ∧ ¬ t.view.hasRoute key ∨ undone

theorem routerInsert_atomic_iff (h : Router.Tracks t.routes live) (key : RouteKey) (id : UInt16)
    (hop : BitVec key.family.width) (oif : UInt32) {undone : Prop} :
    (∀ rc t', routerInsert e key t id hop oif = some (rc, t') →
      if rc = 0 then t'.view.hasRoute key else t'.view = t.view ∧ undone) ↔
      ((maskOf (netOrder key.mask)).isSome = true → RouteInserts e t undone key oif) := by
  rw [routerInsert]
  cases hm : maskOf (netOrder key.mask) with
  | none => simp
  | some m =>
    simp only [Option.map_some, Option.isSome_some, forall_const, RouteInserts]
    cases hport : e.ports oif with
    | none =>
      simp only [Option.isNone_none, Bool.or_true, if_true, Router.alRouterInsert, hport]
      exact forall_returned
    | some port =>
      cases hmem : e.calloc with
      | false =>
        simp only [Option.isNone_some, Bool.or_false, Bool.false_eq_true, if_false]
        refine forall_returned.trans ?_
        simp
      | true =>
        have hspec := (h key.family (Router.alRouter key.rtype)).rnAddroute
          (fresh_mask (netOrder key.subnet) m) ⟨id, key.rtype, netOrder hop, port⟩
        simp only [Option.isNone_some, Bool.or_false, if_true, Router.alRouterInsert, hport,
          Option.getD_some, hasRoute_iff h hm, true_and]
        cases hadd : rnAddroute (netOrder key.subnet &&& m.bits) m.len
            ⟨id, key.rtype, netOrder hop, port⟩ (t.routes key.family (Router.alRouter key.rtype)) with
        | none =>
          rw [hadd] at hspec
          refine forall_returned.trans ?_
          simp [hspec]
        | some tree =>
          rw [hadd] at hspec
          refine forall_returned.trans (iff_of_true ?_ (.inl (not_not.mpr hspec.1)))
          rw [if_pos rfl]
          have hnew := h.set hspec.2
          refine (hasRoute_iff (t := { t with routes := _ }) hnew hm).mpr ?_
          rw [Router.Live.set_self]
          exact Option.some_ne_none _

theorem routerRemove_spec (h : Router.Tracks t.routes live) (hm : maskOf (netOrder key.mask) = some m) :
    ∃ rc routes, routerRemove t key = some (rc, { t with routes }) ∧ Router.Tracks routes
      (live.set key.family (Router.alRouter key.rtype) (netOrder key.subnet) m none) := by
  have hstep := @Router.Tracks.step (fun _ => none) _ _ h
    (.delete key.family (netOrder key.subnet) m key.rtype)
  rw [routerRemove, hm, Option.map_some]
  exact ⟨_, _, rfl, hstep⟩

theorem routerRemove_lacks (h : Router.Tracks t.routes live)
    (hs : routerRemove t key = some (rc, t')) : ¬ t'.view.hasRoute key := by
  cases hm : maskOf (netOrder key.mask) with
  | none =>
    rw [routerRemove, hm] at hs
    cases hs
  | some m =>
    obtain ⟨rc', routes, hrun, htracks⟩ := routerRemove_spec h hm
    cases hs.symm.trans hrun
    rw [hasRoute_iff (t := { t with routes }) htracks hm, Router.Live.set_self]
    exact not_not.mpr rfl

end Routes

/-- `al_dns_insert` never returns 0, so the domain has to be there already. -/
theorem dnsInsert_atomic_iff (e : Supply) (t : Tables) (d : String) (gid dnsid : UInt32)
    {held : Tables → Prop} {undone : Prop} :
    (∀ rc t', some (dnsInsert e t d gid dnsid) = some (rc, t') →
      if rc = 0 then held t' else t'.view = t.view ∧ undone) ↔
      undone ∧ (e.calloc = true → t.domains (domainBytes d) = some ⟨gid, dnsid⟩) := by
  rw [dnsInsert]
  cases e.calloc with
  | false =>
    refine forall_returned.trans ?_
    simp
  | true =>
    refine forall_returned.trans ?_
    simp only [forall_const]
    rw [if_neg (by decide), and_comm]
    refine and_congr_right fun _ => ?_
    simp [Tables.view, eq_comm]

end Aware.Rest
