import Aware.Dns.Store
import Aware.Filter.Held
import Aware.Rest.Handlers
import Aware.Service.Model

/-!
# The tables behind the handlers

The functions that the handlers call, put together from the models of the filter, group, route and
domain tables.
-/
namespace Aware.Rest
open Aware.Member Aware.Radix
open Aware.Service (netOrder)

/-- The domains are kept as the map that the tree of `al_dns.c` stands for. -/
structure Tables where
  filters : Filter.Filters
  groups : Groups
  routes : Router.Tables
  domains : Dns.Records

/-- What the calls of a request get from outside: memory, the answers to `al_group_load`, the
ports, and the uninitialised member that it loads into. -/
structure Supply where
  calloc : Bool
  filterNode : Option Filter.FilterCluster
  filterFresh : Option Filter.FilterCluster
  groupNode : Option MemberCluster
  loadFresh : Option MemberCluster
  memberFresh : UInt32 → Option MemberCluster
  groupSelect : Bool
  memberSelect : Bool
  conf : AlMemberConf
  ports : UInt32 → Option UInt8

def maskOf {w : ℕ} (m : BitVec w) : Option (Mask w) :=
  ((List.finRange (w + 1)).find? fun i => BitStrings.leadingOnes i.val == m).map fun i =>
    ⟨i.val, Nat.lt_succ_iff.mp i.isLt⟩

def ApiFilter.conf (f : ApiFilter) : Filter.FilterConf :=
  ⟨f.id, f.gid, f.filterType, f.proto, f.port⟩

/-- The request that a filter is for the tables; other masks and families have none. -/
def ApiFilter.request (f : ApiFilter) : Option Filter.Request :=
  if f.iptype = afInet then
    (maskOf (netOrder f.mask4.naddr)).map fun m => ⟨.inet, netOrder f.addr4.naddr, m, f.conf⟩
  else if f.iptype = afInet6 then
    (maskOf (netOrder f.mask6.naddr)).map fun m => ⟨.inet6, netOrder f.addr6.naddr, m, f.conf⟩
  else none

section Calls
variable (inet : Inet) (e : Supply)

def alGroupLoad (db : List Row) (g : Groups) (fid gid : UInt32) : Option (Int × Groups) :=
  match (object (liveRows db) "group" (nts gid.toNat)).find "algorithm", e.groupSelect with
  | some alg, true =>
    if e.memberSelect then
      let members := groupMembers inet (liveRows db) gid e.conf (ids (liveRows db) "member")
      match alGroupInsert g fid gid (UInt8.ofInt (Numerals.scanInt 32 alg)) e.groupNode
          (members.1.map fun f => (f, e.loadFresh)) with
      | none => some (-1, g)
      | some g' => if members.2 then none else some (0, g')
    else some (-1, g)
  | _, _ => some (-1, g)

def reachesLoad (s : Filter.Filters) (r : Filter.Request) : Bool :=
  match Filter.alFilterSame s r with
  | some index => (s.chains index).isSome
  | none => (Filter.alFilterRadixInsert s r e.calloc).1 != 0 && e.filterNode.isSome

def filterInsert (db : List Row) (t : Tables) (f : ApiFilter) : Option (Int × Tables) :=
  f.request.bind fun r =>
    if reachesLoad e t.filters r then
      (alGroupLoad inet e db t.groups f.id f.gid).bind fun (load, groups) =>
        (Filter.alFilterInsert t.filters r ⟨load, e.calloc, e.filterNode, e.filterFresh⟩).map
          fun (rc, filters) => (rc, { t with filters, groups })
    else
      (Filter.alFilterInsert t.filters r ⟨0, e.calloc, e.filterNode, e.filterFresh⟩).map
        fun (rc, filters) => (rc, { t with filters })

def filterDel (t : Tables) (f : ApiFilter) : Option (Int × Tables) :=
  f.request.bind fun r =>
    (Filter.alFilterDel t.filters r).map fun (rc, filters) => (rc, { t with filters })

def memberInsert (t : Tables) (fid gid : UInt32) (conf : AlMemberConf) : Int × Tables :=
  match alMemberAdd t.groups fid gid conf (e.memberFresh fid) with
  | none => (-1, t)
  | some groups => (0, { t with groups })

def memberRemove (t : Tables) (fid gid mid : UInt32) : Option (Int × Tables) :=
  match alMemberDelete t.groups fid gid mid with
  | .hit groups => some (0, { t with groups })
  | .miss groups => some (-1, { t with groups })
  | .fault => none

def routerInsert (key : RouteKey) (t : Tables) (id : UInt16) (nexthop : BitVec key.family.width)
    (oif : UInt32) : Option (Int × Tables) :=
  (maskOf (netOrder key.mask)).map fun m =>
    if e.calloc || (e.ports oif).isNone then
      let (rc, routes) := Router.alRouterInsert e.ports t.routes key.family id (netOrder key.subnet)
        m (some (netOrder nexthop)) key.rtype oif
      (rc, { t with routes })
    else (-1, t)

def routerRemove (t : Tables) (key : RouteKey) : Option (Int × Tables) :=
  (maskOf (netOrder key.mask)).map fun m =>
    let (rc, routes) := Router.alRouterDelete t.routes key.family (netOrder key.subnet) m key.rtype
    (rc, { t with routes })

def domainBytes (d : String) : List UInt8 :=
  d.toByteArray.data.toList

/-- `al_dns_insert` returns what `rc` was set to at its start. -/
def dnsInsert (t : Tables) (d : String) (gid dnsid : UInt32) : Int × Tables :=
  if e.calloc then
    (-1, { t with domains := Function.update t.domains (domainBytes d) (some ⟨gid, dnsid⟩) })
  else (-1, t)

end Calls

/-- What the tables hold: the filters of each prefix, the members of each copy of a group, the
routes and the domains. -/
structure View where
  filters : (f : Family) → BitVec f.width → ℕ → List Filter.AlFilter
  groups : UInt64 → Option (UInt8 × List AlMember)
  routes : (f : Family) → Router.Table → BitVec f.width → ℕ → Option (Router.Route f.width)
  domains : Dns.Records

def Tables.view (t : Tables) : View where
  filters := t.filters.held
  groups key := (t.groups key).map fun g => (g.schd, g.chain.members)
  routes f k key n := (t.routes f k).entry key n
  domains := t.domains

def View.hasFilter (v : View) (fid : UInt32) : Prop :=
  ∃ f k n, ∃ m ∈ v.filters f k n, m.fid = fid

def View.hasMember (v : View) (mid gid fid : UInt32) : Prop :=
  ∃ g ∈ v.groups (alMakeKey fid gid), ∃ m ∈ g.2, m.mid = mid

def View.hasRoute (v : View) (key : RouteKey) : Prop :=
  ∃ m ∈ maskOf (netOrder key.mask),
    (v.routes key.family (Router.alRouter key.rtype) (netOrder key.subnet &&& m.bits) m.len).isSome

def View.Holds (v : View) : Object → Prop
  | .filter _ fid => v.hasFilter fid
  | .member _ mid gid fids => ∀ fid ∈ fids, v.hasMember mid gid fid
  | .route _ key => v.hasRoute key
  | .domain _ name => (v.domains (domainBytes name)).isSome

def View.Lacks (v : View) : Object → Prop
  | .filter _ fid => ¬ v.hasFilter fid
  | .member _ mid gid fids => ∀ fid ∈ fids, ¬ v.hasMember mid gid fid
  | .route _ key => ¬ v.hasRoute key
  | .domain _ name => v.domains (domainBytes name) = none

def callees (inet : Inet) (e : Supply) : Callees Tables View where
  filterInsert := filterInsert inet e
  filterDel := filterDel
  memberAdd t fid gid conf := some (memberInsert e t fid gid conf)
  memberDelete := memberRemove
  routerInsert := routerInsert e
  routerDelete := routerRemove
  dnsInsert t d gid dnsid := some (dnsInsert e t d gid dnsid)
  view := Tables.view
  Holds := View.Holds
  Lacks := View.Lacks

theorem dnsInsert_represents {e : Supply} {t : Tables} {tree : Dns.DomainTree} {d : String}
    (h : Dns.Represents tree t.domains) (hd : 0 ∉ domainBytes d) (hmem : e.calloc = true)
    (gid dnsid : UInt32) :
    ∃ tree', Dns.alDnsInsert tree (Dns.buffer (domainBytes d)) (domainBytes d).length gid dnsid =
        some (tree', (dnsInsert e t d gid dnsid).1) ∧
      Dns.Represents tree' (dnsInsert e t d gid dnsid).2.domains := by
  rw [dnsInsert, if_pos hmem]
  exact h.insert (Dns.spells_buffer _) hd (Dns.buffer_end _) gid dnsid

end Aware.Rest
