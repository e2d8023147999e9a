import Aware.Filter.Search
import Aware.Rest.MemberDelete

/-!
# The ids that additions report

An addition answers with its id as `nts<int16_t>` writes it, while the rows have it as
`nts<int64_t>` does. A deletion looks for the text that it is given.
-/
namespace Aware.Rest
open Function Aware.Member Aware.Radix
open Aware.Service (netOrder)

def reported (id : ℕ) : String :=
  Numerals.formatInt 16 id

theorem reported_eq_iff (id : ℕ) : reported id = nts id ↔ id < 2 ^ 15 :=
  Numerals.formatInt_eq_repr_iff 16 id

def Object.column : Object → Row → String
  | .route _ _ => Row.key3
  | _ => Row.key2

def Object.Numbered (id : ℕ) : Object → Prop
  | .filter i fid => i = nts id ∧ fid = UInt32.ofNat id
  | .member i mid _ _ => i = nts id ∧ mid = UInt32.ofNat id
  | .route i _ => i = nts id
  | .domain i _ => i = nts id

def groupOf (db : List Row) (id : String) : String :=
  (object (liveRows db) "member" id).get "group"

def Object.now (db : List Row) : Object → Object
  | .member id mid _ _ =>
    .member id mid (stn32 (groupOf db id)) (filtersWithGroup db (groupOf db id))
  | o => o

def deletion (db : List Row) (text : String) (f : ApiFilter) : Object → Delete
  | .filter _ _ => .filter (some (jsonOf [("id", text)])) f
  | .member id _ _ _ => .member (some (jsonOf [("group_id", groupOf db id), ("member_id", text)]))
  | .route _ _ => .route (some (jsonOf [("id", text)]))
  | .domain _ _ => .domain (some (jsonOf [("dns_id", text)]))

def RouteKey.place (key : RouteKey) : Option (Router.Table × Filter.Prefix) :=
  (maskOf (netOrder key.mask)).map fun m =>
    (Router.alRouter key.rtype, ⟨key.family, netOrder key.subnet &&& m.bits, m.len⟩)

def Object.isFilter (m : Filter.AlFilter) : Object → Bool
  | .filter _ fid => m.fid == fid
  | _ => false

def Object.isMember (key : UInt64) (m : AlMember) : Object → Bool
  | .member _ mid gid fids => (fids.map (alMakeKey · gid)).contains key && m.named mid
  | _ => false

def Object.isRoute (k : Router.Table) (p : Filter.Prefix) : Object → Bool
  | .route _ key => key.place == some (k, p)
  | _ => false

def Object.isDomain (d : List UInt8) : Object → Bool
  | .domain _ name => d == domainBytes name
  | _ => false

structure TakenOut (o : Object) (t t' : Tables) : Prop where
  filters : ∀ f k n,
    t'.view.filters f k n = (t.view.filters f k n).filter fun m => !o.isFilter m
  groups : ∀ key, t'.view.groups key =
    (t.view.groups key).map fun c => (c.1, c.2.filter fun m => !o.isMember key m)
  routes : ∀ f k a n,
    t'.view.routes f k a n = if o.isRoute k ⟨f, a, n⟩ then none else t.view.routes f k a n
  domains : ∀ d, t'.view.domains d = if o.isDomain d then none else t.view.domains d

/-- The live rows and the tables have lost the object and nothing else. -/
structure Gone (o : Object) (w w' : World Tables) : Prop where
  rows : liveRows w'.rows = (liveRows w.rows).filter fun r => !o.owns r
  tables : TakenOut o w.tables w'.tables

def DeletedBy (inet : Inet) (e : Supply) (p : Points) (w : World Tables) (f : ApiFilter)
    (o : Object) (text : String) : Prop :=
  ∃ errno objects w', handle (callees inet e) inet p w (.delete (deletion w.rows text f o)) =
    .returned 0 errno objects w' ∧ Gone (o.now w.rows) w w'

structure FilterPlaced (s : Filter.Filters) (r : Filter.Request) : Prop where
  finds : s.Finds r
  clears : ∀ c ∈ s.chains (Filter.alFilterRadixLookup s r), Clears s r c
  last : ∀ c ∈ s.chains (Filter.alFilterRadixLookup s r), c.nums = 1 →
    ∀ m ∈ c.filters, m.fid = r.conf.id

structure CopiesHold (t : Tables) (mid gid : UInt32) (fids : List UInt32) : Prop where
  yields : ∀ fid ∈ fids, t.Yields gid mid fid (fids.count fid)
  once : ∀ fid ∈ fids, t.view.named gid mid fid ≤ fids.count fid

/-- Where an object is in memory: a filter where its rows lead to, a member in every copy, a
route in the main table. -/
def Object.Placed (inet : Inet) (w : World Tables) (f : ApiFilter) : Object → Prop
  | .filter i _ => ∃ r ∈ (filterOfRows inet f i (object w.rows "filter" i)).bind ApiFilter.request,
      FilterPlaced w.tables.filters r
  | .member _ mid gid fids => CopiesHold w.tables mid gid fids
  | .route _ key => key.rtype ≠ 0
  | .domain _ _ => False

structure Regular (inet : Inet) (w : World Tables) (f : ApiFilter) (id : ℕ) (o : Object) : Prop where
  sole : ∀ row ∈ liveRows w.rows, o.column row = nts id → o.owns row = true
  placed : (o.now w.rows).Placed inet w f

def Object.Answered (p : Points) : Object → Prop
  | .filter _ _ => p.update = true ∧ p.fetch = true
  | .member _ _ _ _ => p.update = true ∧ p.members = true ∧ p.fetch = true
  | .route _ _ => p.update = true ∧ p.search = true
  | .domain _ _ => False

variable {inet : Inet} {e : Supply} {p : Points} {w : World Tables} {t : Tables} {f : ApiFilter}
  {o : Object} {text : String} {id : ℕ}

@[simp] theorem now_owns (db : List Row) (o : Object) : (o.now db).owns = o.owns := by
  cases o <;> rfl

theorem Object.Numbered.column (h : o.Numbered id) {r : Row} (hr : o.owns r = true) :
    o.column r = nts id := by
  cases o with
  | filter i fid => exact (belongs_iff.mp hr).2.trans h.1
  | member i mid gid fids => exact (belongs_iff.mp hr).2.trans h.1
  | route i key =>
    simp only [Object.owns, Bool.and_eq_true, beq_iff_eq] at hr
    exact hr.2.trans h
  | domain i name => exact (belongs_iff.mp hr).2.trans h

theorem removal_marks {r : Removal}
    (h : removal inet p w (deletion w.rows text f o) = .ok r) :
    r.marks = fun row => o.column row == text := by
  cases o with
  | filter i fid =>
    obtain ⟨j, kid, hj, hkid, hmarks, -⟩ := filterDelete_ok h
    cases hj
    cases hkid
    exact hmarks
  | member i mid gid fids =>
    obtain ⟨j, g, m, hj, hinfo, -, hmarks, -⟩ := memberDelete_ok h
    cases hj
    have hm : text = m := memberInfo_asked hinfo
    rw [hmarks, ← hm]
    rfl
  | route i key =>
    obtain ⟨j, rid, d, rtype, hj, hrid, -, hmarks, -⟩ := routerDelete_ok h
    cases hj
    cases hrid
    exact hmarks
  | domain i name => cases h

theorem liveRows_retire (m : Row → Bool) (db : List Row) :
    liveRows (retire m db) = (liveRows db).filter fun r => !m r := by
  induction db with
  | nil => rfl
  | cons r db ih =>
    simp only [liveRows, retire, List.map_cons, List.filter_cons] at ih ⊢
    cases hm : m r <;> cases hlive : r.isLive <;> simp [hm, hlive, ih]

theorem DeletedBy.text_eq (h : DeletedBy inet e p w f o text) (hnum : o.Numbered id)
    (hlive : o.InRows w.rows) : text = nts id := by
  obtain ⟨errno, objects, w', hreply, hgone⟩ := h
  obtain ⟨r, hr, hrows, -⟩ := delete_returned hreply
  obtain ⟨row, hrow, howns⟩ := hlive
  have hgone := hgone.rows
  rw [hrows, removal_marks hr, liveRows_retire] at hgone
  by_contra hne
  have hstays : row ∈ (liveRows w.rows).filter fun r => !(o.column r == text) := by
    refine List.mem_filter.mpr ⟨hrow, ?_⟩
    rw [hnum.column howns]
    simpa using Ne.symm hne
  rw [hgone, List.mem_filter, now_owns, howns] at hstays
  exact absurd hstays.2 (by decide)

/-- The rows lose just the object when no other has its id; the tables are left to the call. -/
theorem deletedBy_iff (hnum : o.Numbered id) :
    DeletedBy inet e p w f o (nts id) ↔
      (∀ row ∈ liveRows w.rows, o.column row = nts id → o.owns row = true) ∧ p.update = true ∧
        ∃ r t', removal inet p w (deletion w.rows (nts id) f o) = .ok r ∧
          (callees inet e).delete w.tables (r.call (retire r.marks w.rows)) = some (0, t') ∧
          TakenOut (o.now w.rows) w.tables t' := by
  have hrows : ∀ {r}, removal inet p w (deletion w.rows (nts id) f o) = .ok r →
      (liveRows (retire r.marks w.rows) = (liveRows w.rows).filter (fun row => !(o.now w.rows).owns row) ↔
        ∀ row ∈ liveRows w.rows, o.column row = nts id → o.owns row = true) := by
    intro r hr
    rw [liveRows_retire, removal_marks hr, now_owns, Undo.filter_eq_filter_iff]
    refine forall₂_congr fun row _ => ?_
    rw [Bool.not_inj_iff, Bool.eq_iff_iff, beq_iff_eq]
    exact ⟨Iff.mp, fun h => ⟨h, hnum.column⟩⟩
  constructor
  · rintro ⟨errno, objects, w', hreply, hgone⟩
    obtain ⟨r, hr, hmarked, hcall⟩ := delete_returned hreply
    have hgonerows := hgone.rows
    rw [hmarked] at hcall hgonerows
    refine ⟨(hrows hr).mp hgonerows, ?_, r, _, hr, hcall, hgone.tables⟩
    by_contra hup
    simp [handle, hr, Removal.run, hup] at hreply
  · rintro ⟨hsole, hup, r, t', hr, hcall, htaken⟩
    refine ⟨none, r.objects, ⟨retire r.marks w.rows, t'⟩, ?_, (hrows hr).mpr hsole, htaken⟩
    simp only [handle, hr, Removal.run, hup, if_true, hcall]

theorem keep_groups (x : Option (UInt8 × List AlMember)) :
    x = x.map fun c => (c.1, c.2.filter fun _ => !false) := by
  cases x <;> simp

section Filters
variable {s : Filter.Filters} {r : Filter.Request} {i : String}

theorem eraseP_eq_filter_iff {l : List Filter.AlFilter} {fid : UInt32} :
    l.eraseP (fun m => m.fid == fid) = l.filter (fun m => !(m.fid == fid)) ↔
      l.countP (fun m => m.fid == fid) ≤ 1 :=
  Keyed.iterate_eraseP_eq_filter_iff 1 l

theorem filterPlaced_iff (hk : t.filters.Kept) :
    (∃ s', Filter.alFilterDel t.filters r = some (0, s') ∧
      TakenOut (.filter i r.conf.id) t { t with filters := s' }) ↔ FilterPlaced t.filters r := by
  have htaken : ∀ s', TakenOut (.filter i r.conf.id) t { t with filters := s' } ↔
      ∀ f k n, s'.held f k n = (t.filters.held f k n).filter fun m => !(m.fid == r.conf.id) := by
    intro s'
    exact ⟨fun h => h.filters, fun h => ⟨h, fun key => keep_groups _, fun f k a n => rfl, fun d => rfl⟩⟩
  simp only [htaken]
  by_cases hfinds : t.filters.Finds r
  · obtain ⟨c, hc⟩ := exists_chain_of_finds hfinds
    obtain ⟨rc, s', hdel, hrc, hheld⟩ := hk.del_hit hc hfinds
    have hat : ∀ f k n, (t.filters.tree f).entry k n = some (Filter.alFilterRadixLookup t.filters r) →
        t.filters.held f k n = c.filters := by
      intro f k n hentry
      rw [Filter.Filters.held, hentry, Option.map_some, Option.getD_some, Filter.filtersAt_of_some hc]
    constructor
    · rintro ⟨s'', hdel', htable⟩
      cases hdel.symm.trans hdel'
      obtain ⟨k, n, hentry⟩ := exists_entry_of_finds hk hfinds
      have hplace := htable r.family k n
      rw [hheld, if_pos hentry, hat _ _ _ hentry] at hplace
      refine ⟨hfinds, fun c' hc' => ⟨?_, fun hne => ?_, fun f k n hother m hm => ?_⟩,
        fun c' hc' hlast => ?_⟩ <;> cases hc.symm.trans hc'
      · exact hrc.mp rfl
      · rw [if_neg hne] at hplace
        exact eraseP_eq_filter_iff.mp hplace
      · have hkeeps := htable f k n
        rw [hheld, if_neg hother, eq_comm, List.filter_eq_self] at hkeeps
        simpa using hkeeps m hm
      · rw [if_pos hlast, eq_comm, List.filter_eq_nil_iff] at hplace
        simpa using hplace
    · intro h
      have hclears := h.clears c hc
      obtain rfl : rc = 0 := hrc.mpr hclears.removable
      refine ⟨s', hdel, fun f k n => ?_⟩
      rw [hheld]
      split
      · next hentry =>
          rw [hat f k n hentry]
          split
          · next hlast =>
              rw [eq_comm, List.filter_eq_nil_iff]
              simpa using h.last c hc hlast
          · next hne => exact eraseP_eq_filter_iff.mpr (hclears.once hne)
      · next hother =>
          rw [eq_comm, List.filter_eq_self]
          simpa using hclears.alone f k n hother
  · obtain ⟨s', hdel, -⟩ := hk.del_miss hfinds
    refine iff_of_false ?_ fun h => hfinds h.finds
    rintro ⟨s'', hdel', -⟩
    cases hdel.symm.trans hdel'

theorem filter_deletedBy_iff (hid : id < 2 ^ 32) (hk : w.tables.filters.Kept)
    (ho : o = .filter (nts id) (UInt32.ofNat id)) :
    DeletedBy inet e p w f o (nts id) ↔ Regular inet w f id o ∧ o.Answered p := by
  subst ho
  have hnum : (Object.filter (nts id) (UInt32.ofNat id)).Numbered id := ⟨rfl, rfl⟩
  rw [deletedBy_iff hnum]
  suffices h : (∃ r t', removal inet p w
        (deletion w.rows (nts id) f (.filter (nts id) (UInt32.ofNat id))) = .ok r ∧
      (callees inet e).delete w.tables (r.call (retire r.marks w.rows)) = some (0, t') ∧
      TakenOut (.filter (nts id) (UInt32.ofNat id)) w.tables t') ↔
      p.fetch = true ∧ (Object.filter (nts id) (UInt32.ofNat id)).Placed inet w f by
    constructor
    · rintro ⟨hsole, hup, hcall⟩
      obtain ⟨hfetch, hplaced⟩ := h.mp hcall
      exact ⟨⟨hsole, hplaced⟩, hup, hfetch⟩
    · rintro ⟨hreg, hup, hfetch⟩
      exact ⟨hreg.sole, hup, h.mpr ⟨hfetch, hreg.placed⟩⟩
  have hok : ∃ r, removal inet p w
      (deletion w.rows (nts id) f (.filter (nts id) (UInt32.ofNat id))) = .ok r := ⟨_, rfl⟩
  obtain ⟨r, hr⟩ := hok
  obtain ⟨j, kid, hj, hkid, -, -, hcall⟩ := filterDelete_ok hr
  cases hj
  cases hkid
  simp only [hr, Except.ok.injEq, existsAndEq, true_and, hcall, object_retire, Object.Placed]
  cases p.fetch with
  | false => simp [Callees.delete]
  | true =>
    simp only [if_true, true_and]
    cases hg : filterOfRows inet f (nts id) (object w.rows "filter" (nts id)) with
    | none => simp [Callees.delete]
    | some g =>
      have hgid : g.id = UInt32.ofNat id := by
        obtain ⟨g', -, rfl⟩ := Option.map_eq_some_iff.mp hg
        exact (stn32_nts id).trans (if_pos hid)
      simp only [Callees.delete, callees, filterDel, Option.bind_some]
      cases hreq : g.request with
      | none => simp
      | some q =>
        have hfid : q.conf.id = UInt32.ofNat id := by
          rw [ApiFilter.request_conf hreq]
          exact hgid
        simp only [Option.bind_some, Option.mem_def, Option.some.injEq, exists_eq_left']
        rw [← filterPlaced_iff (i := nts id) hk, hfid]
        simp only [Option.map_eq_some_iff, Prod.exists, Prod.mk.injEq]
        constructor
        · rintro ⟨t', ⟨rc, s', hdel, rfl, rfl⟩, htaken⟩
          exact ⟨s', hdel, htaken⟩
        · rintro ⟨s', hdel, htaken⟩
          exact ⟨_, ⟨0, s', hdel, rfl, rfl⟩, htaken⟩

end Filters

section Members
variable {mid gid : UInt32} {fids : List UInt32}

theorem copiesHold_iff (hc : t.Counted gid fids) {i : String} :
    (∃ t', overCopies (fun t fid => memberRemove t fid gid mid) fids t = some (0, t') ∧
      TakenOut (.member i mid gid fids) t t') ↔ CopiesHold t mid gid fids := by
  -- what the run leaves is what is wanted when no copy has the member too often
  have htaken : ∀ {t'}, overCopies (fun t fid => memberRemove t fid gid mid) fids t = some (0, t') →
      (TakenOut (.member i mid gid fids) t t' ↔
        ∀ fid ∈ fids, t.view.named gid mid fid ≤ fids.count fid) := by
    intro t' hrun
    obtain ⟨hview, -, -, g, rfl⟩ := hc.overCopies (List.Subset.refl _) hrun
    constructor
    · intro h fid hfid
      have hkey := h.groups (alMakeKey fid gid)
      rw [hview] at hkey
      cases hgroup : t.groups (alMakeKey fid gid) with
      | none =>
        rw [View.named, view_groups, hgroup]
        exact Nat.zero_le _
      | some mn =>
        rw [named_of_some hgroup]
        rw [view_groups, hgroup, Option.map_some, Option.map_some, Option.map_some,
          Option.some.injEq, removed, Prod.mk.injEq, count_keys] at hkey
        simp only [Object.isMember, List.contains_iff_mem.mpr (List.mem_map_of_mem hfid),
          Bool.true_and] at hkey
        exact (Keyed.iterate_eraseP_eq_filter_iff _ _).mp hkey.2
    · intro h
      refine ⟨fun f k n => ?_, fun key => ?_, fun f k a n => rfl, fun d => rfl⟩
      · exact (List.filter_eq_self.mpr fun _ _ => rfl).symm
      · rw [hview]
        refine Option.map_congr fun c hgroup => Prod.ext rfl ?_
        by_cases hkey : key ∈ fids.map (alMakeKey · gid)
        · obtain ⟨fid, hfid, rfl⟩ := List.mem_map.mp hkey
          obtain ⟨mn, hmn, rfl⟩ := Option.map_eq_some_iff.mp hgroup
          have honce := h fid hfid
          rw [named_of_some hmn] at honce
          simp only [Object.isMember, List.contains_iff_mem.mpr hkey, Bool.true_and, removed,
            count_keys]
          exact (Keyed.iterate_eraseP_eq_filter_iff _ _).mpr honce
        · have hnot : (fids.map (alMakeKey · gid)).contains key = false := by simpa using hkey
          simp only [Object.isMember, hnot, Bool.false_and, removed,
            List.count_eq_zero_of_not_mem hkey]
          exact (List.filter_eq_self.mpr fun _ _ => rfl).symm
  constructor
  · rintro ⟨t', hrun, h⟩
    exact ⟨hc.overCopies_iff.mp ⟨t', hrun⟩, (htaken hrun).mp h⟩
  · intro h
    obtain ⟨t', hrun⟩ := hc.overCopies_iff.mpr h.yields
    exact ⟨t', hrun, (htaken hrun).mpr h.once⟩

theorem memberDelete_of_named {g m : String} (hne : membersToDelete w g m ≠ []) :
    (∃ r, memberDelete p w (some (jsonOf [("group_id", g), ("member_id", m)])) = .ok r) ↔
      p.members = true ∧ p.fetch = true := by
  have hinfo : memberInfo p w (jsonOf [("group_id", g), ("member_id", m)]) = .ok (g, m) := rfl
  simp only [memberDelete, orStop, bind, Except.bind, hinfo]
  cases p.members with
  | false => simp
  | true =>
    simp only [if_true]
    split
    · next hnil => exact absurd hnil hne
    · cases p.fetch <;> simp [pure, Except.pure]

theorem member_deletedBy_iff (hid : id < 2 ^ 32)
    (hlive : ∃ row ∈ liveRows w.rows, row.belongs "member" (nts id) = true)
    (hc : w.tables.Counted (stn32 (groupOf w.rows (nts id)))
      (filtersWithGroup w.rows (groupOf w.rows (nts id))))
    (ho : o = .member (nts id) (UInt32.ofNat id) gid fids) :
    DeletedBy inet e p w f o (nts id) ↔ Regular inet w f id o ∧ o.Answered p := by
  subst ho
  have hmid : stn32 (nts id) = UInt32.ofNat id := (stn32_nts id).trans (if_pos hid)
  have hne : membersToDelete w (groupOf w.rows (nts id)) (nts id) ≠ [] :=
    List.ne_nil_of_mem (mem_membersToDelete.mpr ⟨hlive, .inr rfl, rfl⟩)
  have hruns := memberDelete_of_named (p := p) hne
  have hnum : (Object.member (nts id) (UInt32.ofNat id) gid fids).Numbered id := ⟨rfl, rfl⟩
  rw [deletedBy_iff hnum]
  constructor
  · rintro ⟨hsole, hup, r, t', hr, hcall, htaken⟩
    obtain ⟨j, g, m, hj, hinfo, -, -, hdel, -⟩ := memberDelete_ok hr
    cases hj
    cases hinfo
    rw [hdel, hmid] at hcall
    exact ⟨⟨hsole, (copiesHold_iff hc).mp ⟨t', hcall, htaken⟩⟩, hup, hruns.mp ⟨r, hr⟩⟩
  · rintro ⟨hreg, hup, hanswered⟩
    obtain ⟨r, hr⟩ := hruns.mpr hanswered
    obtain ⟨t', hrun, htaken⟩ := (copiesHold_iff (i := nts id) hc).mpr hreg.placed
    obtain ⟨j, g, m, hj, hinfo, -, -, hdel, -⟩ := memberDelete_ok hr
    cases hj
    cases hinfo
    refine ⟨hreg.sole, hup, r, t', hr, ?_, htaken⟩
    rw [hdel, hmid]
    exact hrun

end Members

structure RouteTexts where
  iptype : String
  address : String
  netmask : String
  nexthop : String
  name : String

def RouteTexts.fields (x : RouteTexts) (policy : Bool) (rtype : String) : Fields :=
  [("iptype", x.iptype), (if policy then "srcip" else "dstip", x.address), ("rtype", rtype),
    ("netmask", x.netmask), ("nexthop", x.nexthop), ("name", x.name)]

structure RouteTexts.Read (inet : Inet) (x : RouteTexts) (rtype : String) (key : RouteKey) : Prop where
  family : routeFamily x.iptype = .ok key.family
  subnet : inet.pton key.family x.address = some key.subnet
  mask : inet.pton key.family x.netmask = some key.mask
  rtype : key.rtype = alRouterRtype rtype

section Routes
variable {live : Router.Live} {key : RouteKey} {rtype : String} {x : RouteTexts}

theorem live_set_none (live : Router.Live) (k : Router.Table) {f : Family} (subnet : BitVec f.width)
    (mask : Mask f.width) (f' : Family) (k' : Router.Table) (a : BitVec f'.width) (n : ℕ) :
    live.set f k subnet mask none f' k' a n =
      if (k, (⟨f, subnet &&& mask.bits, mask.len⟩ : Filter.Prefix)) = (k', ⟨f', a, n⟩) then none
      else live f' k' a n := by
  rw [Router.Live.set]
  rcases eq_or_ne f' f with rfl | hf
  · rw [update_self]
    rcases eq_or_ne k' k with rfl | hk
    · rw [update_self, PrefixMap.set]
      simp only [Prod.mk.injEq, Filter.Prefix.mk.injEq, heq_eq_eq, true_and, eq_comm]
    · rw [update_of_ne hk, if_neg fun heq => hk (Prod.mk.inj heq).1.symm]
  · rw [update_of_ne hf, if_neg]
    exact fun heq => hf (congrArg Filter.Prefix.family (Prod.mk.inj heq).2).symm

theorem routerRemove_takenOut (h : Router.Tracks t.routes live) (i : String)
    (hplace : key.place.isSome = true) :
    ∃ rc t', routerRemove t key = some (rc, t') ∧ TakenOut (.route i key) t t' := by
  obtain ⟨m, hm⟩ : ∃ m, maskOf (netOrder key.mask) = some m := by
    simpa [RouteKey.place, Option.isSome_iff_exists] using hplace
  obtain ⟨rc, routes, hrun, htracks⟩ := routerRemove_spec h hm
  refine ⟨rc, _, hrun, ?_, ?_, ?_, ?_⟩
  · exact fun f k n => (List.filter_eq_self.mpr fun _ _ => rfl).symm
  · exact fun key => keep_groups _
  · intro f k a n
    rw [view_routes h]
    refine (view_routes (t := { t with routes }) htracks f k a n).trans ?_
    rw [live_set_none]
    simp only [Object.isRoute, RouteKey.place, hm, Option.map_some, beq_iff_eq, Option.some.injEq]
  · exact fun d => rfl

theorem storedKey_of_read (hx : x.Read inet rtype key) :
    routeReads inet (x.fields false rtype) = true ∧ storedKey inet (x.fields false rtype) rtype = key := by
  obtain ⟨fam, ip, mask, k⟩ := key
  obtain ⟨hfam, hip, hmask, hk : k = _⟩ := hx
  subst hk
  have hfam' : storedFamily (x.fields false rtype) = fam := by
    change (if x.iptype = "ipv4" then Family.inet else Family.inet6) = fam
    rw [routeFamily] at hfam
    split_ifs at hfam <;> cases hfam <;> simp_all
  subst hfam'
  -- the fields are found under their keys, in the family of the type
  have hip' : inet.pton (storedFamily (x.fields false rtype))
      (Fields.get (x.fields false rtype) "dstip") = some ip := hip
  have hmask' : inet.pton (storedFamily (x.fields false rtype))
      (Fields.get (x.fields false rtype) "netmask") = some mask := hmask
  simp [routeReads, storedKey, hip', hmask']

theorem searchRouteById_of_rows {fields : Fields} (hne : fields ≠ [])
    (hrows : (liveRows w.rows).filter (fun r => r.key3 == nts id) = routeRows id rtype fields) :
    (searchRouteById p w (nts id)).toOption = if p.search then some (fields, rtype) else none := by
  have hall : (routeRows id rtype fields).all (fun r => r.key4.isSome) = true := by
    simp [routeRows, routeRow]
  have hfields : routeFields (routeRows id rtype fields) = fields := by
    simp [routeFields, routeRows, routeRow, comp_def]
  rw [searchRouteById, hrows]
  cases p.search with
  | false => rfl
  | true =>
    simp only [if_true]
    split
    · next hnone =>
        rw [List.getLast?_eq_none_iff] at hnone
        exact absurd (List.map_eq_nil_iff.mp hnone) hne
    · next last hlast =>
        obtain ⟨field, -, rfl⟩ := List.mem_map.mp (List.mem_of_getLast? hlast)
        rw [if_pos hall, hfields]
        rfl

theorem rows_of_sole {fields : Fields}
    (hrows : w.rows.filter (Object.route (nts id) key).owns = routeRows id rtype fields)
    (hsole : ∀ row ∈ liveRows w.rows, (Object.route (nts id) key).column row = nts id →
      (Object.route (nts id) key).owns row = true) :
    (liveRows w.rows).filter (fun r => r.key3 == nts id) = routeRows id rtype fields := by
  have hnum : (Object.route (nts id) key).Numbered id := rfl
  have hsame : (liveRows w.rows).filter (fun r => r.key3 == nts id) =
      (liveRows w.rows).filter (Object.route (nts id) key).owns := by
    refine List.filter_congr fun row hrow => ?_
    rw [Bool.eq_iff_iff, beq_iff_eq]
    exact ⟨hsole row hrow, hnum.column⟩
  rw [hsame, liveRows, List.filter_comm, hrows]
  refine List.filter_eq_self.mpr fun r hr => ?_
  obtain ⟨field, -, rfl⟩ := List.mem_map.mp hr
  rfl

theorem route_deletedBy_iff (hpton : ∀ f, inet.pton f "" = none) (htracks : Router.Tracks w.tables.routes live)
    {policy : Bool} (hx : x.Read inet rtype key) (hpolicy : policy = true ↔ key.rtype = 0)
    (hplace : key.place.isSome = true)
    (hrows : w.rows.filter (Object.route (nts id) key).owns =
      routeRows id rtype (x.fields policy rtype))
    (ho : o = .route (nts id) key) :
    DeletedBy inet e p w f o (nts id) ↔ Regular inet w f id o ∧ o.Answered p := by
  subst ho
  have hnum : (Object.route (nts id) key).Numbered id := rfl
  rw [deletedBy_iff hnum]
  constructor
  · rintro ⟨hsole, hup, r, t', hr, hcall, -⟩
    obtain ⟨j, rid, d, rt, hj, hrid, hsearch, -, -, hdel⟩ := routerDelete_ok hr
    cases hj
    cases hrid
    have hstored := searchRouteById_of_rows (p := p) (by simp [RouteTexts.fields]) (rows_of_sole hrows hsole)
    rw [hsearch] at hstored
    cases hsearch' : p.search with
    | false =>
      rw [hsearch'] at hstored
      cases hstored
    | true =>
      rw [hsearch'] at hstored
      cases hstored
      refine ⟨⟨hsole, fun hzero => ?_⟩, hup, hsearch'⟩
      -- a route by source has no destination to read
      obtain rfl := hpolicy.mpr hzero
      have hno : routeReads inet (x.fields true rtype) = false := by
        change ((inet.pton _ "").isSome && _) = false
        rw [hpton]
        rfl
      rw [hdel, hno] at hcall
      cases hcall
  · rintro ⟨hreg, hup, hsearch⟩
    have hmain : policy = false := by
      rw [Bool.eq_false_iff]
      exact mt hpolicy.mp hreg.placed
    subst hmain
    have hstored := searchRouteById_of_rows (p := p) (by simp [RouteTexts.fields])
      (rows_of_sole hrows hreg.sole)
    rw [hsearch, if_pos rfl] at hstored
    obtain ⟨d, hd⟩ : ∃ d, searchRouteById p w (nts id) = .ok d := by
      cases hs : searchRouteById p w (nts id) with
      | error err =>
        rw [hs] at hstored
        cases hstored
      | ok d => exact ⟨d, rfl⟩
    rw [hd] at hstored
    cases hstored
    obtain ⟨hreads, hkey⟩ := storedKey_of_read hx
    obtain ⟨r, hr⟩ : ∃ r, routerDelete inet p w (some (jsonOf [("id", nts id)])) = .ok r := by
      have hbody : routerDelete inet p w (some (jsonOf [("id", nts id)])) =
        searchRouteById p w (nts id) >>= _ := rfl
      rw [hbody, hd]
      exact ⟨_, rfl⟩
    obtain ⟨j, rid, d, rt, hj, hrid, hagain, -, -, hdel⟩ := routerDelete_ok hr
    cases hj
    cases hrid
    cases hd.symm.trans hagain
    obtain ⟨rc, t', hremove, htaken⟩ := routerRemove_takenOut htracks (nts id) hplace
    refine ⟨hreg.sole, hup, r, t', hr, ?_, htaken⟩
    rw [hdel, hreads, hkey, if_pos rfl]
    change (routerRemove w.tables key).map _ = _
    rw [hremove]
    rfl

end Routes

section Added
variable {w' : World Tables} {errno : Option Errno} {a : Addition}

theorem add_returned {req : Add}
    (h : handle (callees inet e) inet p w (.add req) = .returned 0 errno [o] w') :
    ∃ a new, addition inet p w req = .ok a ∧ a.object = o ∧ a.rows = some new ∧
      w'.rows = w.rows ++ new ∧ (callees inet e).insert w'.rows w.tables a.call = some (0, w'.tables) := by
  cases ha : addition inet p w req with
  | error err =>
    simp only [handle, ha] at h
    cases err <;> cases h
  | ok a =>
    simp only [handle, ha] at h
    have hthrows : ∀ v, a.throws v ≠ .returned 0 errno [o] w' := by
      intro v
      rw [Addition.throws]
      split <;> simp
    rw [Addition.run] at h
    split at h
    · exact absurd h (hthrows _)
    · next new hnew =>
        split at h
        · dsimp only at h
          split at h
          · split at h
            · cases h
            · next rc t hcall =>
                split at h
                · next hrc =>
                    cases h
                    exact ⟨a, new, rfl, rfl, hnew, rfl, hrc ▸ hcall⟩
                · cases h
          · exact absurd h (hthrows _)
        · cases h

theorem rtypeOf_eq_policy_iff {w : ℕ} (policy : Bool) (ip mask nexthop : BitVec w) :
    policy = true ↔ alRouterRtype (rtypeOf policy ip mask nexthop) = 0 := by
  cases policy with
  | true => exact iff_of_true rfl rfl
  | false =>
    refine iff_of_false Bool.false_ne_true ?_
    rw [rtypeOf, if_neg Bool.false_ne_true, routeType]
    split_ifs <;> decide

theorem routerAdd_ok {msg : Option Json} (hid : p.newid = some id)
    (h : routerAdd inet p w msg = .ok a) :
    ∃ (x : RouteTexts) (policy : Bool) (rtype : String) (key : RouteKey)
        (hop : BitVec key.family.width) (oif : UInt32),
      x.Read inet rtype key ∧ (policy = true ↔ key.rtype = 0) ∧
      a.rows = some (routeRows id rtype (x.fields policy rtype)) ∧ a.object = .route (nts id) key ∧
      a.call = .routerInsert key (UInt16.ofNat id) hop oif := by
  simp only [routerAdd, bind_eq_ok, orStop_eq_ok] at h
  obtain ⟨j, -, h⟩ := h
  split at h
  · simp only [bind_eq_ok, orStop_eq_ok] at h
    obtain ⟨ifname, -, oif, -, ⟨ipaddr, policy⟩, -, iptype, -, fam, hfam, ip, hip, netmask, -, mask,
      hmask, nexthop, -, hop, -, h⟩ := h
    split at h
    · cases h
    · simp only [bind_eq_ok, orStop_eq_ok, hid] at h
      obtain ⟨vid, hvid, h⟩ := h
      cases hvid
      cases h
      refine ⟨⟨iptype, ipaddr, netmask, nexthop, ifname⟩, policy, _,
        ⟨fam, ip, mask, alRouterRtype (rtypeOf policy ip mask hop)⟩, hop, oif,
        ⟨hfam, hip, hmask, rfl⟩, ?_, rfl, rfl, rfl⟩
      exact rtypeOf_eq_policy_iff policy ip mask hop
  · cases h

end Added

def hostFields : Fields :=
  RouteTexts.fields ⟨"ipv4", "10.0.0.1", "255.255.255.0", "10.0.0.1", "eth0"⟩ false "static"

def hostRoute : Request :=
  .add (.route (some (jsonOf hostFields)))

def hostKey : RouteKey :=
  ⟨.inet, 0x0100000a, 0x00ffffff, 2⟩

def hostRouted (id : ℕ) (len : Mask 32) : Tables :=
  { Tables.empty with
    routes := Router.run Router.onePort
      [.insert .inet (UInt16.ofNat id) 0x0a000001 len (some 0x0a000001) 2 7] }

end Aware.Rest
