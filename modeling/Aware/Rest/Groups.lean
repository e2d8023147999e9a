import Aware.Filter.Held
import Aware.Rest.Tables

/-!
# Which groups are loaded

`al_filter_add` loads the group of a filter before it looks for a slot, and nothing in
`al_filter_del` gives it back.
-/
namespace Aware.Filter
open Function

def Filters.Live (s : Filters) (m : AlFilter) : Prop :=
  ∃ index, m ∈ s.filtersAt index

section Add
variable {s s' : Filters} {r : Request} {env : Env} {rc : Int}

theorem radixInsert_index {calloc : Bool} (h : (alFilterRadixInsert s r calloc).1 ≠ 0) :
    (alFilterRadixInsert s r calloc).1 = s.index + 1 := by
  simp only [alFilterRadixInsert] at h ⊢
  split at h
  · split at h
    · exact absurd rfl h
    · simp_all
  · exact absurd rfl h

theorem insert_unloaded (hload : env.load ≠ 0) (h : alFilterInsert s r env = some (rc, s')) :
    rc ≠ 0 ∧ s'.chains = s.chains := by
  have hadd (c : AlFilterChain) : alFilterAdd c r.conf env.load env.fresh = (env.load, c) := by
    simp only [alFilterAdd, if_pos hload]
  rw [alFilterInsert] at h
  split at h
  · split at h
    · cases h
    · next hc =>
        cases h
        rw [hadd]
        exact ⟨hload, update_eq_self_iff.mpr hc.symm⟩
  · simp only [hadd, if_neg hload] at h
    split at h
    · cases h
      exact ⟨Int.negSucc_ne_zero 0, radixInsert_chains s r env.calloc⟩
    · split at h <;> cases h <;> rw [radixDel_chains, radixInsert_chains] <;>
        exact ⟨Int.negSucc_ne_zero 0, rfl⟩

theorem insert_loaded_same (hkept : s.Kept) {index : UInt32} (hsame : alFilterSame s r = some index)
    {c : AlFilterChain} (hc : s.chains index = some c) (hload : env.load = 0)
    (hroom : takes c env.fresh = true) (h : alFilterInsert s r env = some (rc, s')) :
    ∃ c', s'.chains = update s.chains index (some c') ∧
      c'.filters.Perm (alSetFilter r.conf :: s.filtersAt index) := by
  have hspec := (hkept.chains index c hc).1.add_spec r.conf env.load env.fresh
  rw [if_pos ⟨hload, hroom⟩] at hspec
  obtain ⟨c', hadd, -, hperm, -⟩ := hspec
  simp only [alFilterInsert, hsame, hc, hadd] at h
  cases h
  exact ⟨c', rfl, by rwa [filtersAt_of_some hc]⟩

theorem insert_loaded_new (hsame : alFilterSame s r = none)
    (hindex : (alFilterRadixInsert s r env.calloc).1 ≠ 0) {mem : FilterCluster}
    (hnode : env.node = some mem) (hload : env.load = 0) (hfree : s.chains (s.index + 1) = none)
    (h : alFilterInsert s r env = some (rc, s')) :
    ∃ c', s'.chains = update s.chains (s.index + 1) (some c') ∧
      c'.filters.Perm (alSetFilter r.conf :: s.filtersAt (s.index + 1)) := by
  have hspec := (newChain_sound mem).add_spec r.conf env.load env.fresh
  rw [if_pos ⟨hload, by simp [takes, newChain_firstFree mem]⟩] at hspec
  obtain ⟨c', hadd, -, hperm, -⟩ := hspec
  simp only [alFilterInsert, hsame, if_neg hindex, hnode, hadd, if_true] at h
  cases h
  refine ⟨c', ?_, ?_⟩
  · rw [radixInsert_index hindex, radixInsert_chains]
  · simpa [Filters.filtersAt, hfree] using hperm

theorem live_update {index : UInt32} {c : AlFilterChain} {l : List AlFilter}
    (hs : s'.chains = update s.chains index (some c))
    (hperm : c.filters.Perm (l ++ s.filtersAt index)) (m : AlFilter) :
    s'.Live m ↔ m ∈ l ∨ s.Live m := by
  have hat (i : UInt32) : m ∈ s'.filtersAt i ↔ (i = index ∧ m ∈ l) ∨ m ∈ s.filtersAt i := by
    rcases eq_or_ne i index with rfl | hne
    · have hself : s'.filtersAt i = c.filters := by
        rw [Filters.filtersAt, hs, update_self]
        rfl
      rw [hself, hperm.mem_iff, List.mem_append]
      simp
    · have hother : s'.filtersAt i = s.filtersAt i := by
        rw [Filters.filtersAt, hs, update_of_ne hne]
        rfl
      simp [hother, hne]
  simp only [Filters.Live, hat, exists_or, exists_eq_left]

theorem insert_chains (h : alFilterInsert s r env = some (rc, s')) {i : UInt32}
    (hi : i ≠ s.index + 1) (hnone : s.chains i = none) : s'.chains i = none := by
  rw [alFilterInsert] at h
  split at h
  · split at h
    · cases h
    · next hc =>
        cases h
        refine (update_of_ne ?_ _ _).trans hnone
        rintro rfl
        cases hnone.symm.trans hc
  · simp only at h
    split at h
    · cases h
      rw [radixInsert_chains, hnone]
    · next hindex =>
        rw [← radixInsert_index hindex] at hi
        split at h
        · cases h
          rw [radixDel_chains, radixInsert_chains, hnone]
        · split at h
          · cases h
            exact (update_of_ne hi _ _).trans (by rw [radixInsert_chains, hnone])
          · cases h
            rw [radixDel_chains, radixInsert_chains, hnone]

theorem del_chains (h : alFilterDel s r = some (rc, s')) {i : UInt32} (hnone : s.chains i = none) :
    s'.chains i = none := by
  simp only [alFilterDel] at h
  split at h
  · cases h
    exact hnone
  · split at h
    · cases h
      exact hnone
    · next hc =>
        have hi : i ≠ alFilterRadixLookup s r := by
          rintro rfl
          cases hnone.symm.trans hc
        split at h
        · cases h
        · split at h
          · cases h
            exact (update_of_ne hi _ _).trans (by rw [radixDel_chains, hnone])
          · cases h
            exact (update_of_ne hi _ _).trans hnone

end Add

end Aware.Filter

namespace Aware.Rest
open Function Aware.Member

inductive FilterCall where
  | insert (e : Supply) (db : List Row) (f : ApiFilter)
  | del (f : ApiFilter)

def filterStep (inet : Inet) (t : Tables) : FilterCall → Option Tables
  | .insert e db f => (filterInsert inet e db t f).map Prod.snd
  | .del f => (filterDel t f).map Prod.snd

def Tables.empty : Tables :=
  ⟨Filter.alFilterInit, fun _ => none, Router.alRouterInit, fun _ => none⟩

/-- A group is loaded for a pair exactly when a live filter has it. -/
def Tables.Owned (t : Tables) : Prop :=
  ∀ fid gid, (t.groups (alMakeKey fid gid)).isSome ↔
    ∃ m, t.filters.Live m ∧ m.fid = fid ∧ m.gid = gid

def roomFor (e : Supply) (s : Filter.Filters) (r : Filter.Request) : Bool :=
  match Filter.alFilterSame s r with
  | some index => ((s.chains index).map fun c => Filter.takes c e.filterFresh).getD true
  | none => (s.chains (s.index + 1)).isNone

/-- An insertion that loads its group has a slot for the filter, and a deletion misses. -/
def Harmless (inet : Inet) (t : Tables) : FilterCall → Prop
  | .insert e db f => ∀ r ∈ f.request, reachesLoad e t.filters r = true →
      (alGroupLoad inet e db t.groups f.id f.gid).map Prod.fst = some 0 → roomFor e t.filters r = true
  | .del f => ∀ r ∈ f.request,
      ∀ m ∈ t.filters.filtersAt (Filter.alFilterRadixLookup t.filters r), m.fid ≠ f.id

instance (inet : Inet) (t : Tables) : (call : FilterCall) → Decidable (Harmless inet t call)
  | .insert _ _ _ => inferInstanceAs (Decidable (∀ r ∈ _, _ → _ → _))
  | .del _ => inferInstanceAs (Decidable (∀ r ∈ _, ∀ m ∈ _, _))

section Load
variable {inet : Inet} {e : Supply} {db : List Row} {g g' : Groups} {fid gid : UInt32} {load : Int}

def loadedMembers (inet : Inet) (e : Supply) (db : List Row) (gid : UInt32) : List AlMemberConf × Bool :=
  groupMembers inet (liveRows db) gid e.conf (ids (liveRows db) "member")

structure GroupLoads (inet : Inet) (e : Supply) (db : List Row) (g : Groups) (fid gid : UInt32) :
    Prop where
  row : ((object (liveRows db) "group" (nts gid.toNat)).find "algorithm").isSome = true
  selects : e.groupSelect = true ∧ e.memberSelect = true
  absent : g (alMakeKey fid gid) = none
  node : e.groupNode.isSome = true
  room : (loadedMembers inet e db gid).1.length ≤ memberClusterSize ∨ e.loadFresh.isSome = true

variable {node : Option MemberCluster}

theorem alGroupInsert_eq_some_iff {sched : UInt8} {fresh : Option MemberCluster}
    {confs : List AlMemberConf} :
    (∃ g', alGroupInsert g fid gid sched node (confs.map fun f => (f, fresh)) = some g') ↔
      g (alMakeKey fid gid) = none ∧ node.isSome = true ∧
        (confs.length ≤ memberClusterSize ∨ fresh.isSome = true) := by
  simp only [alGroupInsert]
  cases g (alMakeKey fid gid) with
  | some mn => simp
  | none =>
    cases node with
    | none => simp
    | some node =>
      simp only [← Option.isSome_iff_exists, Option.isSome_map, alGroupLoadMember_isSome_iff,
        initChain_hasRoom_iff, Option.isSome_some, true_and]

theorem alGroupInsert_set {sched : UInt8} {rows : List (AlMemberConf × Option MemberCluster)}
    (h : alGroupInsert g fid gid sched node rows = some g') :
    ∃ n, g' = g.set (alMakeKey fid gid) (some n) := by
  simp only [alGroupInsert] at h
  split at h
  · cases h
  · split at h
    · cases h
    · obtain ⟨chain, -, rfl⟩ := Option.map_eq_some_iff.mp h
      exact ⟨_, rfl⟩

theorem GroupLoads.alGroupLoad (h : GroupLoads inet e db g fid gid) :
    ∃ n, Rest.alGroupLoad inet e db g fid gid = if (loadedMembers inet e db gid).2 then none
      else some (0, g.set (alMakeKey fid gid) (some n)) := by
  obtain ⟨alg, halg⟩ := Option.isSome_iff_exists.mp h.row
  obtain ⟨g', hins⟩ := alGroupInsert_eq_some_iff.mpr ⟨h.absent, h.node, h.room⟩
  obtain ⟨n, rfl⟩ := alGroupInsert_set hins
  refine ⟨n, ?_⟩
  simp only [Rest.alGroupLoad, halg, h.selects.1, h.selects.2, if_true]
  rw [loadedMembers] at hins ⊢
  rw [hins]

theorem alGroupLoad_refused (h : ¬ GroupLoads inet e db g fid gid) :
    alGroupLoad inet e db g fid gid = some (-1, g) := by
  rw [alGroupLoad]
  split
  · next alg halg hselect =>
      split
      · next hmembers =>
          dsimp only
          split
          · rfl
          · next g' hins =>
              obtain ⟨habsent, hnode, hroom⟩ := alGroupInsert_eq_some_iff.mp ⟨g', hins⟩
              exact absurd ⟨by rw [halg]; rfl, ⟨hselect, hmembers⟩, habsent, hnode, hroom⟩ h
      · rfl
  · rfl

theorem alGroupLoad_cases (h : alGroupLoad inet e db g fid gid = some (load, g')) :
    (load = 0 ∧ ∃ n, g' = g.set (alMakeKey fid gid) (some n)) ∨ (load = -1 ∧ g' = g) := by
  by_cases hloads : GroupLoads inet e db g fid gid
  · obtain ⟨n, hload⟩ := hloads.alGroupLoad
    rw [hload] at h
    split at h
    · cases h
    · cases h
      exact .inl ⟨rfl, n, rfl⟩
  · rw [alGroupLoad_refused hloads] at h
    cases h
    exact .inr ⟨rfl, rfl⟩

end Load

section Step
variable {inet : Inet} {t t' : Tables}

structure Tables.Tidy (t : Tables) : Prop where
  kept : t.filters.Kept
  owned : t.Owned

theorem empty_tidy : Tables.empty.Tidy where
  kept := Filter.kept_alFilterInit
  owned := by
    intro fid gid
    simp [Tables.empty, Filter.Filters.Live, Filter.Filters.filtersAt, Filter.alFilterInit]

theorem Tables.Owned.congr (h : t.Owned) (hgroups : t'.groups = t.groups)
    (hlive : ∀ m, t'.filters.Live m ↔ t.filters.Live m) : t'.Owned := by
  intro fid gid
  simp only [hgroups, hlive]
  exact h fid gid

theorem Tables.Owned.of_chains (h : t.Owned) (hgroups : t'.groups = t.groups)
    (hchains : t'.filters.chains = t.filters.chains) : t'.Owned :=
  h.congr hgroups fun m => by
    simp only [Filter.Filters.Live, Filter.Filters.filtersAt, hchains]

theorem Tables.Owned.added (h : t.Owned) {index : UInt32} {c : Filter.AlFilterChain}
    {conf : Filter.FilterConf} {n : AlMemberNode}
    (hchains : t'.filters.chains = update t.filters.chains index (some c))
    (hperm : c.filters.Perm (Filter.alSetFilter conf :: t.filters.filtersAt index))
    (hgroups : t'.groups = t.groups.set (alMakeKey conf.id conf.gid) (some n)) : t'.Owned := by
  intro fid gid
  have hlive := Filter.live_update (l := [Filter.alSetFilter conf]) hchains hperm
  simp only [hgroups, hlive, List.mem_singleton, or_and_right, exists_or, exists_eq_left]
  by_cases hkey : alMakeKey fid gid = alMakeKey conf.id conf.gid
  · obtain ⟨rfl, rfl⟩ := alMakeKey_inj.mp hkey
    simp [Filter.alSetFilter]
  · rw [Groups.set_of_ne _ hkey, h fid gid]
    have hother : ¬ ((Filter.alSetFilter conf).fid = fid ∧ (Filter.alSetFilter conf).gid = gid) := by
      rintro ⟨rfl, rfl⟩
      exact hkey rfl
    simp [hother]

variable {f : ApiFilter} {rc : Int}

theorem ApiFilter.request_conf {r : Filter.Request} (h : r ∈ f.request) : r.conf = f.conf := by
  rw [ApiFilter.request] at h
  split_ifs at h
  · obtain ⟨m, -, rfl⟩ := Option.map_eq_some_iff.mp h
    rfl
  · obtain ⟨m, -, rfl⟩ := Option.map_eq_some_iff.mp h
    rfl
  · cases h

theorem insert_short {e : Supply} {s s' : Filter.Filters} {r : Filter.Request} {env : Filter.Env}
    (hshort : reachesLoad e s r = false) (hcalloc : env.calloc = e.calloc)
    (hnode : env.node = e.filterNode) (h : Filter.alFilterInsert s r env = some (rc, s')) :
    rc ≠ 0 ∧ s'.chains = s.chains := by
  rw [reachesLoad] at hshort
  rw [Filter.alFilterInsert] at h
  split at h
  · next hsame =>
      simp only [hsame, Option.isSome_eq_false_iff, Option.isNone_iff_eq_none] at hshort
      rw [hshort] at h
      cases h
  · next hsame =>
      simp only [hsame, Bool.and_eq_false_iff, bne_eq_false_iff_eq] at hshort
      simp only [hcalloc, hnode] at h
      split at h
      · cases h
        exact ⟨Int.negSucc_ne_zero 0, Filter.radixInsert_chains s r e.calloc⟩
      · next hindex =>
          have hnone : e.filterNode = none := by simpa using hshort.resolve_left hindex
          rw [hnone] at h
          cases h
          rw [Filter.radixDel_chains, Filter.radixInsert_chains]
          exact ⟨Int.negSucc_ne_zero 0, rfl⟩

theorem Tables.Tidy.insert (h : t.Tidy) {e : Supply} {db : List Row}
    (hg : Harmless inet t (.insert e db f))
    (hs : filterInsert inet e db t f = some (rc, t')) : t'.Tidy := by
  obtain ⟨r, hr, hs⟩ := Option.bind_eq_some_iff.mp hs
  have hconf := ApiFilter.request_conf hr
  by_cases hreach : reachesLoad e t.filters r = true
  · rw [if_pos hreach] at hs
    obtain ⟨⟨load, g⟩, hload, hs⟩ := Option.bind_eq_some_iff.mp hs
    obtain ⟨⟨rc', s'⟩, hins, heq⟩ := Option.map_eq_some_iff.mp hs
    cases heq
    refine ⟨h.kept.insert hins, ?_⟩
    rcases alGroupLoad_cases hload with ⟨rfl, n, rfl⟩ | ⟨rfl, rfl⟩
    · have hroom := hg r hr hreach (by rw [hload]; rfl)
      rw [roomFor] at hroom
      rw [reachesLoad] at hreach
      cases hsame : Filter.alFilterSame t.filters r with
      | some index =>
        simp only [hsame] at hroom hreach
        obtain ⟨c, hc⟩ := Option.isSome_iff_exists.mp hreach
        rw [hc, Option.map_some, Option.getD_some] at hroom
        obtain ⟨c', hchains, hperm⟩ := Filter.insert_loaded_same h.kept hsame hc rfl hroom hins
        rw [hconf] at hperm
        exact h.owned.added hchains hperm rfl
      | none =>
        simp only [hsame, Bool.and_eq_true, bne_iff_ne, Option.isNone_iff_eq_none] at hroom hreach
        obtain ⟨mem, hmem⟩ := Option.isSome_iff_exists.mp hreach.2
        obtain ⟨c', hchains, hperm⟩ := Filter.insert_loaded_new hsame hreach.1 hmem rfl hroom hins
        rw [hconf] at hperm
        exact h.owned.added hchains hperm rfl
    · exact h.owned.of_chains rfl (Filter.insert_unloaded (Int.negSucc_ne_zero 0) hins).2
  · rw [if_neg hreach] at hs
    obtain ⟨⟨rc', s'⟩, hins, heq⟩ := Option.map_eq_some_iff.mp hs
    cases heq
    exact ⟨h.kept.insert hins,
      h.owned.of_chains rfl (insert_short (Bool.eq_false_iff.mpr hreach) rfl rfl hins).2⟩

theorem Tables.Tidy.del (h : t.Tidy) (hg : Harmless inet t (.del f))
    (hs : filterDel t f = some (rc, t')) : t'.Tidy := by
  obtain ⟨r, hr, hs⟩ := Option.bind_eq_some_iff.mp hs
  obtain ⟨⟨rc', s'⟩, hdel, heq⟩ := Option.map_eq_some_iff.mp hs
  cases heq
  have hid : r.conf.id = f.id := congrArg Filter.FilterConf.id (ApiFilter.request_conf hr)
  have hmiss : ¬ t.filters.Finds r := fun ⟨m, hm, heq⟩ => hg r hr m hm (heq.trans hid)
  obtain ⟨s'', hdel', -, hat⟩ := h.kept.del_miss hmiss
  cases hdel.symm.trans hdel'
  refine ⟨h.kept.del hdel, h.owned.congr rfl fun m => ?_⟩
  simp only [Filter.Filters.Live, hat]

theorem Tables.Tidy.step (h : t.Tidy) {call : FilterCall} (hg : Harmless inet t call)
    (hs : filterStep inet t call = some t') : t'.Tidy := by
  cases call with
  | insert e db f =>
    obtain ⟨⟨rc, _⟩, hcall, rfl⟩ := Option.map_eq_some_iff.mp hs
    exact h.insert hg hcall
  | del f =>
    obtain ⟨⟨rc, _⟩, hcall, rfl⟩ := Option.map_eq_some_iff.mp hs
    exact h.del hg hcall

end Step

/-- In every state that harmless calls lead to, the loaded groups are those of the live filters. -/
theorem groups_owned {inet : Inet} {calls : List FilterCall}
    (hg : Runs.Guarded (filterStep inet) (Harmless inet) Tables.empty calls) {t : Tables}
    (h : calls.foldlM (filterStep inet) Tables.empty = some t) : t.Owned :=
  (hg.foldlM_invariant (fun _ _ _ ht hcall hs => ht.step hcall hs) empty_tidy h).owned

def ample : Supply :=
  ⟨true, some Filter.blank, some Filter.blank, some zeroCluster, some zeroCluster, fun _ => none, true,
    true, blankConf, Router.onePort⟩

def anyFilter : ApiFilter :=
  { blankFilter with iptype := afInet, id := 7, gid := 1 }

def insertAny : FilterCall :=
  .insert ample [fieldRow "group" "1" "algorithm" "0"] anyFilter

def runOf (calls : List FilterCall) : Option Tables :=
  calls.foldlM (filterStep someInet) Tables.empty

def sharedCalls : List FilterCall :=
  [insertAny, .insert ample [fieldRow "group" "1" "algorithm" "0"] { anyFilter with id := 8 },
    .del { anyFilter with id := 9 }]

theorem groups_owned_shared : ∃ t, runOf sharedCalls = some t ∧ t.Owned ∧
    (t.groups (alMakeKey 7 1)).isSome ∧ (t.groups (alMakeKey 8 1)).isSome := by
  have hrun : ((runOf sharedCalls).map fun t =>
      ((t.groups (alMakeKey 7 1)).isSome, (t.groups (alMakeKey 8 1)).isSome)) = some (true, true) := by
    decide +kernel
  obtain ⟨t, ht, hloaded⟩ := Option.map_eq_some_iff.mp hrun
  obtain ⟨hfirst, hsecond⟩ := Prod.mk.inj hloaded
  have hguarded : Runs.Guarded (filterStep someInet) (Harmless someInet) Tables.empty sharedCalls := by
    decide +kernel
  exact ⟨t, ht, groups_owned hguarded ht, hfirst, hsecond⟩

theorem filterInsert_chains {inet : Inet} {e : Supply} {db : List Row} {f : ApiFilter} {t t' : Tables}
    {rc : Int} (h : filterInsert inet e db t f = some (rc, t')) {i : UInt32}
    (hi : i ≠ t.filters.index + 1) (hnone : t.filters.chains i = none) :
    t'.filters.chains i = none := by
  obtain ⟨r, -, h⟩ := Option.bind_eq_some_iff.mp h
  split at h
  · obtain ⟨⟨load, g⟩, -, h⟩ := Option.bind_eq_some_iff.mp h
    obtain ⟨⟨rc', s'⟩, hins, heq⟩ := Option.map_eq_some_iff.mp h
    cases heq
    exact Filter.insert_chains hins hi hnone
  · obtain ⟨⟨rc', s'⟩, hins, heq⟩ := Option.map_eq_some_iff.mp h
    cases heq
    exact Filter.insert_chains hins hi hnone

theorem run_chains {e : Supply} {db : List Row} {f f' : ApiFilter} {t : Tables}
    (h : runOf [.insert e db f, .del f'] = some t) {i : UInt32} (hi : i ≠ 1) :
    t.filters.chains i = none := by
  obtain ⟨t₁, h₁, h⟩ := Option.bind_eq_some_iff.mp h
  obtain ⟨t₂, h₂, h⟩ := Option.bind_eq_some_iff.mp h
  cases h
  obtain ⟨⟨rc₁, _⟩, hins, rfl⟩ := Option.map_eq_some_iff.mp h₁
  obtain ⟨⟨rc₂, _⟩, hdel, rfl⟩ := Option.map_eq_some_iff.mp h₂
  obtain ⟨r, -, hmap⟩ := Option.bind_eq_some_iff.mp hdel
  obtain ⟨⟨rc', s'⟩, hs', heq⟩ := Option.map_eq_some_iff.mp hmap
  cases heq
  exact Filter.del_chains hs' (filterInsert_chains hins hi rfl)

theorem group_orphaned : ∃ t, runOf [insertAny, .del anyFilter] = some t ∧ ¬ t.Owned := by
  have hrun : ((runOf [insertAny, .del anyFilter]).map fun t => ((t.groups (alMakeKey 7 1)).isSome,
      t.filters.filtersAt 1)) = some (true, []) := by
    decide +kernel
  obtain ⟨t, ht, hstate⟩ := Option.map_eq_some_iff.mp hrun
  obtain ⟨hloaded, hfirst⟩ := Prod.mk.inj hstate
  refine ⟨t, ht, fun howned => ?_⟩
  obtain ⟨m, ⟨index, hm⟩, -⟩ := (howned 7 1).mp hloaded
  rcases eq_or_ne index 1 with rfl | hne
  · rw [hfirst] at hm
    cases hm
  · have hnone := run_chains ht hne
    rw [Filter.Filters.filtersAt, hnone] at hm
    cases hm

end Aware.Rest
