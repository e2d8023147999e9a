import Aware.Rest.Filter
import Aware.Rest.Member

/-!
# The handlers that add and delete objects

An addition inserts rows, updates the tables in memory and commits; when it fails, the destructor
of `al_db` deletes the rows with its transaction id in `key2`. A deletion marks rows as not live
and updates the tables; it has no transaction id, so nothing is undone. Every handler is given by
the checks it makes first and by what it does after them.
-/
namespace Aware.Rest
open Aware.Member

structure RouteKey where
  family : Family
  subnet : BitVec family.width
  mask : BitVec family.width
  rtype : UInt8

/-- What a request is about: the id in the rows, and what identifies it in memory. A member is in
one copy for each of the filters `fids`. -/
inductive Object where
  | filter (id : String) (fid : UInt32)
  | member (id : String) (mid gid : UInt32) (fids : List UInt32)
  | route (id : String) (key : RouteKey)
  | domain (id : String) (name : String)

/-- Routes keep their id in `key3`, all others in `key2`. -/
def Object.owns : Object → Row → Bool
  | .filter id _ => Row.belongs "filter" id
  | .member id _ _ _ => Row.belongs "member" id
  | .route id _ => fun r => r.key1 == "route" && r.key3 == id
  | .domain id _ => Row.belongs "dns" id

def Object.InRows (o : Object) (db : List Row) : Prop :=
  ∃ r ∈ liveRows db, o.owns r = true

def routeTypes : List String :=
  ["policy", "getway", "direct", "static", ""]

def Object.keys (id : ℕ) : Object → List String
  | .route _ _ => routeTypes
  | _ => [nts id]

structure Object.StoredBy (o : Object) (id : ℕ) (rows : List Row) : Prop where
  live : ∀ r ∈ rows, r.isLive = true
  owns : ∃ r ∈ rows, o.owns r = true
  keys : ∀ r ∈ rows, r.key2 ∈ o.keys id

theorem storedBy_rowsOf {o : Object} {key1 k : String} {id : ℕ} {text : String → Option String}
    {keys : List String} {rows : List Row} (ho : o.owns = Row.belongs key1 (nts id))
    (hkeys : o.keys id = [nts id]) (h : rowsOf key1 (nts id) text (k :: keys) = some rows) :
    o.StoredBy id rows := by
  refine ⟨fun r hr => (mem_rowsOf h hr).1, ?_, fun r hr => ?_⟩
  · obtain ⟨s, rows', _, _, rfl⟩ := rowsOf_cons.mp h
    refine ⟨_, List.mem_cons_self, ?_⟩
    simp [ho, Row.belongs, fieldRow]
  · rw [hkeys, (mem_rowsOf h hr).2.2]
    exact List.mem_singleton_self _

/-- The functions of the data plane that the handlers call, with their return codes. `view` is
what the tables hold, without counters and the like. -/
structure Callees (T V : Type) where
  filterInsert : List Row → T → ApiFilter → Option (Int × T)
  filterDel : T → ApiFilter → Option (Int × T)
  memberAdd : T → UInt32 → UInt32 → AlMemberConf → Option (Int × T)
  memberDelete : T → UInt32 → UInt32 → UInt32 → Option (Int × T)
  routerInsert : (key : RouteKey) → T → UInt16 → BitVec key.family.width → UInt32 → Option (Int × T)
  routerDelete : T → RouteKey → Option (Int × T)
  dnsInsert : T → String → UInt32 → UInt32 → Option (Int × T)
  view : T → V
  Holds : V → Object → Prop
  Lacks : V → Object → Prop

inductive AddCall where
  | filterInsert (f : ApiFilter)
  | memberAdd (gid : UInt32) (conf : AlMemberConf) (fids : List UInt32)
  | routerInsert (key : RouteKey) (id : UInt16) (nexthop : BitVec key.family.width) (oif : UInt32)
  | dnsInsert (d : String) (gid dnsid : UInt32)

def AddCall.object (id : ℕ) : AddCall → Object
  | .filterInsert f => .filter (nts id) f.id
  | .memberAdd gid _ fids => .member (nts id) (UInt32.ofNat id) gid fids
  | .routerInsert key _ _ _ => .route (nts id) key
  | .dnsInsert d _ _ => .domain (nts id) d

/-- What a deletion asks for. `refuse` fails without a call, and `hang` does not return. -/
inductive DelCall where
  | filterDel (f : ApiFilter)
  | memberDelete (gid mid : UInt32) (fids : List UInt32)
  | routerDelete (key : RouteKey)
  | refuse
  | hang

/-- The loop over the copies of a group ends at the first one that refuses. -/
def overCopies {T : Type} (op : T → UInt32 → Option (Int × T)) : List UInt32 → T → Option (Int × T)
  | [], t => some (0, t)
  | fid :: fids, t =>
    (op t fid).bind fun (rc, t) => if rc = 0 then overCopies op fids t else some (-1, t)

section Perform
variable {T V : Type} (c : Callees T V)

def Callees.insert (db : List Row) (t : T) : AddCall → Option (Int × T)
  | .filterInsert f => c.filterInsert db t f
  | .memberAdd gid conf fids => overCopies (fun t fid => c.memberAdd t fid gid conf) fids t
  | .routerInsert key id nexthop oif => c.routerInsert key t id nexthop oif
  | .dnsInsert d gid dnsid => c.dnsInsert t d gid dnsid

/-- A route that is not in the table is only logged. -/
def Callees.delete (t : T) : DelCall → Option (Int × T)
  | .filterDel f => c.filterDel t f
  | .memberDelete gid mid fids => overCopies (fun t fid => c.memberDelete t fid gid mid) fids t
  | .routerDelete key => (c.routerDelete t key).map fun r => (0, r.2)
  | .refuse => some (-1, t)
  | .hang => none

end Perform

structure World (T : Type) where
  rows : List Row
  tables : T

/-- Where a request can fail outside of the data plane: the new id, the queries, the statements
and the undoing. `nic` is `al_get_nic_id`. -/
structure Points where
  newid : Option ℕ
  search : Bool
  fetch : Bool
  members : Bool
  insert : Bool
  update : Bool
  rollback : Bool
  nic : String → Option UInt32

/-- A handler that returned, with the objects it worked on, or one that let an exception through,
or that did not return. -/
inductive Reply (T : Type) where
  | returned (rc : Int) (errno : Option Errno) (objects : List Object) (w : World T)
  | thrown (w : World T)
  | fault

def Stop.reply {T : Type} (w : World T) : Stop → Reply T
  | .failed errno => .returned (-1) errno [] w
  | .idle errno => .returned 0 errno [] w
  | .thrown => .thrown w

/-- `al_db::rollback`, where the transaction id is printed with `%d`. -/
def rollback (p : Points) (id : ℕ) (db : List Row) : List Row :=
  if p.rollback then db.filter fun r => !(r.key2 == Numerals.formatInt32 id) else db

section Transactions
variable {T V : Type} (c : Callees T V)

/-- An addition after its checks. `rows` is `none` when making the text throws; `ready` is
whether what is read after the insertion can be read. -/
structure Addition where
  id : ℕ
  rows : Option (List Row)
  errno : Option Errno
  ready : Bool
  caught : Bool
  call : AddCall
  stored : ∀ l ∈ rows, (call.object id).StoredBy id l

def Addition.object (a : Addition) : Object :=
  a.call.object a.id

def Addition.throws (a : Addition) (w : World T) : Reply T :=
  if a.caught then .returned (-1) (some .intervalError) [] w else .thrown w

def Addition.run (p : Points) (w : World T) (a : Addition) : Reply T :=
  match a.rows with
  | none => a.throws { w with rows := rollback p a.id w.rows }
  | some rows =>
    if p.insert then
      let db := w.rows ++ rows
      if a.ready then
        match c.insert db w.tables a.call with
        | none => .fault
        | some (rc, t) =>
          if rc = 0 then .returned 0 none [a.object] ⟨db, t⟩
          else .returned (-1) none [] ⟨rollback p a.id db, t⟩
      else a.throws { w with rows := rollback p a.id db }
    else .returned (-1) a.errno [] { w with rows := rollback p a.id w.rows }

structure Removal where
  marks : Row → Bool
  call : List Row → DelCall
  errno : Option Errno
  objects : List Object
  nonempty : objects ≠ []

def Removal.run (p : Points) (w : World T) (r : Removal) : Reply T :=
  if p.update then
    let db := retire r.marks w.rows
    match c.delete w.tables (r.call db) with
    | none => .fault
    | some (rc, t) =>
      if rc = 0 then .returned 0 none r.objects ⟨db, t⟩
      else .returned (-1) r.errno [] ⟨db, t⟩
  else .returned (-1) (some .deleteObjFailed) [] w

end Transactions

theorem toOption_orStop {α : Type} (e : Stop) (x : Option α) : (orStop e x).toOption = x := by
  cases x <;> rfl

theorem filterRows_stored (j : Json) (vid : ℕ) (fid : UInt32) :
    ∀ l ∈ (filterRows j vid).toOption, (Object.filter (nts vid) fid).StoredBy vid l := by
  rw [filterRows, toOption_orStop]
  exact fun l => storedBy_rowsOf rfl rfl

theorem memberRows_stored (j : Json) (id : ℕ) (mid gid : UInt32) (fids : List UInt32) :
    ∀ l ∈ (memberRows j id).toOption, (Object.member (nts id) mid gid fids).StoredBy id l := by
  rw [memberRows, toOption_orStop]
  exact fun l => storedBy_rowsOf rfl rfl

section Queries
variable (p : Points) (db : List Row)

def searchFilterByName (name : String) : String :=
  if p.search then
    match (liveRows db).filter fun r => r.key1 == "filter" && r.key3 == "name" && r.value == name with
    | [r] => r.key2
    | _ => ""
  else ""

def groupExistById (gid : String) : String :=
  if gid ∈ ids (liveRows db) "group" then gid else ""

/-- The first group with a name at all or with a field of that value. -/
def groupId (name : String) : String :=
  ((ids (liveRows db) "group").find? fun i =>
    let d := object (liveRows db) "group" i
    d.any fun e => d.find e.1 == some e.2 && (e.1 == "name" || e.2 == name)).getD ""

def filtersWithGroup (gid : String) : List UInt32 :=
  ((ids (liveRows db) "filter").filter fun i =>
    (object (liveRows db) "filter" i).find "group" == some gid).map stn32

end Queries

section Filters
variable {T : Type} (inet : Inet) (p : Points) (w : World T)

def filterAdd (msg : Option Json) (f : ApiFilter) : Except Stop Addition := do
  let j ← orStop (fail .intervalError) msg
  let (f, name) ← filterChecks inet j f
  if searchFilterByName p w.rows name ≠ "" then .error (fail .objectExist)
  else
    let vid ← orStop (.failed none) p.newid
    let group ← j.text "group"
    if p.fetch then
      pure {
        id := vid
        rows := (filterRows j vid).toOption
        errno := none
        ready := (j.get "next_filter").isSome
        caught := true
        call := .filterInsert (installed f vid group)
        stored := filterRows_stored j vid _ }
    else .error (fail .objectEexist)

def filterToDelete (j : Json) : Except Stop String :=
  if j.has "id" then j.text "id"
  else if j.has "name" then do
    let name ← j.text "name"
    let kid := searchFilterByName p w.rows name
    if kid = "" then .error (fail (if p.search then .objectEexist else .dbSelectFailed))
    else pure kid
  else .error (fail .groupDelFailed)

/-- The rows of all kinds with the id are marked. -/
def filterDelete (args : Option Json) (f : ApiFilter) : Except Stop Removal := do
  let j ← orStop (fail .intervalError) args
  let kid ← filterToDelete p w j
  pure {
    marks := fun r => r.key2 == kid
    call := fun db =>
      if p.fetch then
        match filterOfRows inet f kid (object db "filter" kid) with
        | none => .hang
        | some f => .filterDel f
      else .refuse
    errno := some (if p.fetch then .deleteObjFailed else .dbSelectFailed)
    objects := [.filter kid (stn32 kid)]
    nonempty := List.cons_ne_nil _ _ }

end Filters

section Members
variable {T : Type} (inet : Inet) (p : Points) (w : World T)

/-- A failed query makes a text of a null pointer, which throws. -/
def memberGroup (j : Json) : Except Stop String :=
  if j.has "group" then do
    let gid ← j.raw "group"
    if p.search then pure (groupExistById w.rows gid) else .error .thrown
  else if j.has "group_name" then do
    let name ← j.raw "group_name"
    if p.search then pure (groupId w.rows name) else .error .thrown
  else .error (.idle (some .memberParamentsError))

def memberAdd (msg : Option Json) (conf : AlMemberConf) : Except Stop Addition := do
  let j ← orStop .thrown msg
  if memberNeeds.all j.has then
    let gid ← memberGroup p w j
    if gid = "" then .error (fail .groupEexist)
    else
      let conf ← memberChecks inet j conf
      let mid ← orStop (.failed none) p.newid
      if p.fetch then
        let fids := filtersWithGroup w.rows gid
        pure {
          id := mid
          rows := (memberRows j mid).toOption
          errno := none
          ready := true
          caught := false
          call := .memberAdd (stn32 gid) (copied j mid conf) fids
          stored := memberRows_stored j mid _ _ _ }
      else .error (fail .dbSelectFailed)
  else .error (.idle (some .memberParamentsError))

def memberInfo (j : Json) : Except Stop (String × String) := do
  let gid ←
    if j.has "group_id" then j.raw "group_id"
    else if j.has "group_name" then do
      let name ← j.raw "group_name"
      if p.search then pure (groupId w.rows name) else .error .thrown
    else .error (fail .groupInfoNeed)
  let mid ← if j.has "member_id" then j.raw "member_id" else pure ""
  pure (gid, mid)

def membersToDelete (gid mid : String) : List String :=
  (ids (liveRows w.rows) "member").filter fun i =>
    (mid == "" || i == mid) && (object (liveRows w.rows) "member" i).get "group" == gid

def memberDelete (args : Option Json) : Except Stop Removal := do
  let j ← orStop .thrown args
  let (gid, mid) ← memberInfo p w j
  if p.members then
    let fids := filtersWithGroup w.rows gid
    match membersToDelete w gid mid with
    | [] => .error (fail .objectEexist)
    | i :: is =>
      if p.fetch then
        pure {
          marks := fun r => r.key2 == mid
          call := fun _ => .memberDelete (stn32 gid) (stn32 mid) fids
          errno := none
          objects := (i :: is).map fun i => .member i (stn32 i) (stn32 gid) fids
          nonempty := List.cons_ne_nil _ _ }
      else .error (fail .dbSelectFailed)
  else .error (fail .dbSelectFailed)

end Members

section Routes
variable {T : Type} (inet : Inet) (p : Points) (w : World T)

def Inet.pton (f : Family) : String → Option (BitVec f.width) :=
  match f with
  | .inet => inet.pton4
  | .inet6 => inet.pton6

def alRouterRtype (name : String) : UInt8 :=
  ([("policy", 0), ("direct", 1), ("static", 2), ("dynamic", 3), ("gateway", 4)].lookup name).getD 255

def routeType {w : ℕ} (ip mask nexthop : BitVec w) : String :=
  if ip.setWidth 32 = (0 : BitVec 32) then
    if mask.setWidth 32 = (0 : BitVec 32) then "getway" else ""
  else if nexthop.setWidth 32 = (0 : BitVec 32) then "direct" else "static"

def rtypeOf {w : ℕ} (policy : Bool) (ip mask nexthop : BitVec w) : String :=
  if policy then "policy" else routeType ip mask nexthop

theorem rtypeOf_mem {w : ℕ} (policy : Bool) (ip mask nexthop : BitVec w) :
    rtypeOf policy ip mask nexthop ∈ routeTypes := by
  unfold rtypeOf routeType
  split_ifs <;> decide

def routeRow (vid : ℕ) (rtype key4 value : String) : Row :=
  ⟨"route", rtype, nts vid, some key4, value, true⟩

def routeRows (vid : ℕ) (rtype : String) (fields : List (String × String)) : List Row :=
  fields.map fun e => routeRow vid rtype e.1 e.2

theorem routeRows_stored (vid : ℕ) {rtype : String} (htype : rtype ∈ routeTypes)
    (e : String × String) (fields : List (String × String)) (key : RouteKey) :
    ∀ l ∈ some (routeRows vid rtype (e :: fields)), (Object.route (nts vid) key).StoredBy vid l := by
  rintro _ ⟨⟩
  refine ⟨fun r hr => ?_, ⟨_, List.mem_cons_self, ?_⟩, fun r hr => ?_⟩
  · obtain ⟨e', _, rfl⟩ := List.mem_map.mp hr
    rfl
  · simp [Object.owns, routeRow]
  · obtain ⟨e', _, rfl⟩ := List.mem_map.mp hr
    exact htype

def routeFields (rows : List Row) : Fields :=
  rows.map fun r => (r.key4.getD "", r.value)

/-- A route of the same destination and mask, live or not, that has another next hop. -/
def routeExists (ipaddr netmask nexthop : String) : Bool :=
  p.search && w.rows.any fun r => r.key1 == "route" &&
    let d := routeFields (w.rows.filter fun r' => r'.key1 == "route" && r'.key3 == r.key3)
    d.get "dstip" == ipaddr && d.get "netmask" == netmask && d.get "nexthop" != nexthop

def routeNeeds : List String :=
  ["iptype", "nexthop", "netmask", "name"]

def routeFamily (iptype : String) : Except Stop Family :=
  if iptype = "ipv4" then .ok .inet
  else if iptype = "ipv6" then .ok .inet6
  else .error (fail .invalidIpType)

def routeAddress (j : Json) : Except Stop (String × Bool) :=
  if j.has "dstip" then (j.raw "dstip").map fun a => (a, false)
  else if j.has "srcip" then (j.raw "srcip").map fun a => (a, true)
  else .error (.idle (some .routerParamentsMiss))

def routerAdd (msg : Option Json) : Except Stop Addition := do
  let j ← orStop .thrown msg
  if routeNeeds.all j.has then
    let ifname ← j.raw "name"
    let oif ← orStop (.idle none) (p.nic ifname)
    let (ipaddr, policy) ← routeAddress j
    let iptype ← j.raw "iptype"
    let f ← routeFamily iptype
    let ip ← orStop (fail .invalidIp) (inet.pton f ipaddr)
    let netmask ← j.raw "netmask"
    let mask ← orStop (fail .invalidIp) (inet.pton f netmask)
    let nexthop ← j.raw "nexthop"
    let hop ← orStop (fail .invalidIp) (inet.pton f nexthop)
    let rtype := rtypeOf policy ip mask hop
    if routeExists p w ipaddr netmask nexthop then .error (fail .objectExist)
    else
      let vid ← orStop (.failed none) p.newid
      let key : RouteKey := ⟨f, ip, mask, alRouterRtype rtype⟩
      pure {
        id := vid
        rows := some (routeRows vid rtype [("iptype", iptype),
          (if policy then "srcip" else "dstip", ipaddr), ("rtype", rtype), ("netmask", netmask),
          ("nexthop", nexthop), ("name", ifname)])
        errno := some .dbInsertFailed
        ready := true
        caught := false
        call := .routerInsert key (UInt16.ofNat vid) hop oif
        stored := routeRows_stored vid (rtypeOf_mem _ _ _ _) _ _ _ }
  else .error (.idle (some .routerParamentsMiss))

/-- `search_route_by_id` looks at the rows of all kinds with that `key3`; one without a `key4`
throws, and the last gives the type. -/
def searchRouteById (rid : String) : Except Stop (Fields × String) :=
  let rows := (liveRows w.rows).filter fun r => r.key3 == rid
  if p.search then
    match rows.getLast? with
    | none => .error (fail .objectEexist)
    | some last =>
      if rows.all fun r => r.key4.isSome then pure (routeFields rows, last.key2)
      else .error (fail .intervalError)
  else .error (fail .dbSelectFailed)

def storedFamily (d : Fields) : Family :=
  if d.get "iptype" = "ipv4" then .inet else .inet6

def routeReads (d : Fields) : Bool :=
  (inet.pton (storedFamily d) (d.get "dstip")).isSome &&
    (inet.pton (storedFamily d) (d.get "netmask")).isSome

def storedKey (d : Fields) (rtype : String) : RouteKey where
  family := storedFamily d
  subnet := (inet.pton (storedFamily d) (d.get "dstip")).getD 0
  mask := (inet.pton (storedFamily d) (d.get "netmask")).getD 0
  rtype := alRouterRtype rtype

def routerDelete (args : Option Json) : Except Stop Removal := do
  let j ← orStop (fail .intervalError) args
  let rid ← j.text "id"
  let (d, rtype) ← searchRouteById p w rid
  let key := storedKey inet d rtype
  pure {
    marks := fun r => r.key3 == rid
    call := fun _ => if routeReads inet d then .routerDelete key else .refuse
    errno := some .invalidIp
    objects := [.route rid key]
    nonempty := List.cons_ne_nil _ _ }

end Routes

section Domains
variable (p : Points)

def dnsAdd (args : Option Json) : Except Stop Addition := do
  let j ← orStop .thrown args
  if j.has "domain" then
    let domain ← j.raw "domain"
    if j.has "gid" then
      let gid ← j.raw "gid"
      let dnsid ← orStop (.failed none) p.newid
      pure {
        id := dnsid
        rows := rowsOf "dns" (nts dnsid) j.get ["domain", "gid"]
        errno := some .dbInsertFailed
        ready := true
        caught := false
        call := .dnsInsert domain (UInt32.ofInt (Numerals.scanInt 32 gid)) (UInt32.ofNat dnsid)
        stored := fun _ => storedBy_rowsOf rfl rfl }
    else .error (.failed none)
  else .error (.failed none)

/-- The domain is looked up in a table `awrare`, which does not exist, so nothing after the query
is reached. -/
def dnsDelete (args : Option Json) : Except Stop Removal := do
  let j ← orStop (fail .intervalError) args
  if j.has "dns_id" then
    let _ ← j.text "dns_id"
    .error (.failed none)
  else .error (.failed none)

end Domains

section Groups
variable (p : Points) (db : List Row)

def groupsNamed (name : String) : List Row :=
  (liveRows db).filter fun r => r.key1 == "group" && r.key3 == "name" && r.value == name

def insertGroup (gid : ℕ) (name : String) : List Row :=
  [fieldRow "group" (nts gid) "name" name, fieldRow "group" (nts gid) "hcheck" "0",
    fieldRow "group" (nts gid) "algorithm" "0"]

/-- Groups are in the rows only. Their handlers have no transaction id, so nothing is undone. -/
def groupAdd (msg : Option Json) : Except Stop (List Row) := do
  let j ← orStop .thrown msg
  if j.has "name" then
    let name ← j.raw "name"
    if p.search then
      if 0 < (groupsNamed db name).length then .error (fail .objectExist)
      else
        let gid ← orStop (.failed none) p.newid
        if p.insert then pure (db ++ insertGroup gid name) else .error (.failed none)
    else .error (fail .dbSelectFailed)
  else .error (fail .groupNameNeeded)

def searchGroupByName (name : String) : String :=
  if p.search then
    match groupsNamed db name with
    | [r] => r.key2
    | _ => ""
  else ""

/-- A name that is not found ends the handler with 0. -/
def groupToDelete (j : Json) : Except Stop String :=
  if j.has "id" then j.raw "id"
  else if j.has "name" then do
    let name ← j.raw "name"
    let kid := searchGroupByName p db name
    if kid = "" then .error (.idle (some (if p.search then .objectEexist else .dbSelectFailed)))
    else pure kid
  else .error (fail .groupDelFailed)

def filtersNaming (id : String) : List Row :=
  db.filter fun r => r.key1 == "filter" && r.key3 == "group" && r.value == id

def delGroupById (id : String) : Except Stop (List Row) :=
  if p.fetch then
    if (filtersNaming db id).length ≠ 0 then .error (fail .resourceBusy)
    else if p.update then pure (retire (fun r => r.key2 == id) db)
    else .error (fail .deleteObjFailed)
  else .error (fail .dbSelectFailed)

def groupDelete (args : Option Json) : Except Stop (List Row) := do
  let j ← orStop .thrown args
  let kid ← groupToDelete p db j
  delGroupById p db kid

end Groups

/-- The messages are `none` when they cannot be parsed. Filters and members come with what the
uninitialised locals hold. -/
inductive Add where
  | filter (msg : Option Json) (f : ApiFilter)
  | member (msg : Option Json) (conf : AlMemberConf)
  | route (msg : Option Json)
  | domain (args : Option Json)

inductive Delete where
  | filter (args : Option Json) (f : ApiFilter)
  | member (args : Option Json)
  | route (args : Option Json)
  | domain (args : Option Json)

section Handle
variable {T V : Type} (c : Callees T V) (inet : Inet) (p : Points) (w : World T)

def addition : Add → Except Stop Addition
  | .filter msg f => filterAdd inet p w msg f
  | .member msg conf => memberAdd inet p w msg conf
  | .route msg => routerAdd inet p w msg
  | .domain args => dnsAdd p args

def removal : Delete → Except Stop Removal
  | .filter args f => filterDelete inet p w args f
  | .member args => memberDelete p w args
  | .route args => routerDelete inet p w args
  | .domain args => dnsDelete args

inductive Request where
  | add (a : Add)
  | delete (d : Delete)

def handle : Request → Reply T
  | .add a =>
    match addition inet p w a with
    | .error e => e.reply w
    | .ok a => a.run c p w
  | .delete d =>
    match removal inet p w d with
    | .error e => e.reply w
    | .ok r => r.run c p w

end Handle

end Aware.Rest
